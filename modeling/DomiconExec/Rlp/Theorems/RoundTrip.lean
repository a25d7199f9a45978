import DomiconExec.Rlp.TypeInfo
import DomiconExec.Rlp.Theorems.Encode
import DomiconExec.Rlp.Theorems.Decode

namespace Rlp

open List Bytes Program

variable {α β γ : Type} {b c : Bytes} {a a' : α} {item : Item} {items : List Item}
variable {p : Reader α} {t : TypeInfo α}

def Puts (g : EncBuffer → Except EncodeError EncBuffer) (b : Bytes) : Prop :=
  b.length < 2 ^ 64 → ∃ o : Layout, o.bytes = b ∧ ∀ w, g w = .ok (w.put o)

theorem Puts.raw {g : EncBuffer → EncBuffer}
    (h : b.length < 2 ^ 64 → ∀ w, g w = w.put (.raw b .nil)) : Puts (fun w => .ok (g w)) b := by
  intro hb
  exact ⟨.raw b .nil, by simp [Layout.bytes], fun w => congrArg _ (h hb w)⟩

theorem Puts.foldlM {l : List γ} {g : EncBuffer → γ → Except EncodeError EncBuffer}
    (h : List.Forall₂ (fun x item => Puts (g · x) (Item.encode item)) l items) :
    Puts (l.foldlM g ·) (Item.encodeAll items) := by
  induction h
  case nil => exact fun _ => ⟨.nil, rfl, fun w => by simp [pure, Except.pure]⟩
  case cons x item l items hx _ hi =>
    intro hb
    rw [Item.encodeAll, length_append] at hb
    obtain ⟨o₁, hb₁, hw₁⟩ := hx (by omega)
    obtain ⟨o₂, hb₂, hw₂⟩ := hi (by omega)
    refine ⟨o₁.append o₂, by simp [Item.encodeAll, hb₁, hb₂], fun w => ?_⟩
    dsimp only at hw₁ hw₂ ⊢
    rw [foldlM_cons, hw₁, ← EncBuffer.put_put, ← hw₂]
    rfl

-- Whatever is written between opening and closing a list becomes the content of the list.
theorem Puts.list {g : EncBuffer → Except EncodeError EncBuffer}
    (h : Puts g (Item.encodeAll items)) :
    Puts (fun w => do
      let w' ← g w.list.fst
      return w'.listEnd w.list.snd) (Item.list items).encode := by
  intro hb
  rw [Item.encode, length_append] at hb
  obtain ⟨o, ho, hw⟩ := h (by omega)
  refine ⟨.list o .nil, by simp [Layout.bytes, Item.encode, ho], fun w => ?_⟩
  dsimp only
  rw [hw, ← EncBuffer.listEnd_put (by rw [ho]; omega)]
  rfl

theorem Puts.nil : Puts Except.ok [] :=
  fun _ => ⟨.nil, rfl, fun w => by rw [EncBuffer.put_nil]⟩

theorem Puts.comp {f g : EncBuffer → EncBuffer} (hf : Puts (fun w => .ok (f w)) b)
    (hg : Puts (fun w => .ok (g w)) c) : Puts (fun w => .ok (g (f w))) (b ++ c) := by
  intro hb
  rw [length_append] at hb
  obtain ⟨o₁, hb₁, hw₁⟩ := hf (by omega)
  obtain ⟨o₂, hb₂, hw₂⟩ := hg (by omega)
  refine ⟨o₁.append o₂, by rw [Layout.bytes_append, hb₁, hb₂], fun w => ?_⟩
  dsimp only at hw₁ hw₂ ⊢
  rw [hw₂, Except.ok.inj (hw₁ w), EncBuffer.put_put]

theorem Puts.foldl {l : List γ} {g : EncBuffer → γ → EncBuffer} {f : γ → Item}
    (h : ∀ x ∈ l, Puts (fun w => .ok (g w x)) (f x).encode) :
    Puts (fun w => .ok (l.foldl g w)) (Item.encodeAll (l.map f)) := by
  induction l
  case nil => exact .nil
  case cons x l hi =>
    obtain ⟨hx, hl⟩ := forall_mem_cons.mp h
    exact hx.comp (hi hl)

theorem Puts.close {g : EncBuffer → EncBuffer}
    (h : Puts (fun w => .ok (g w)) (Item.encodeAll items)) :
    Puts (fun w => .ok ((g w.list.fst).listEnd w.list.snd)) (Item.list items).encode :=
  h.list

theorem Puts.writeBytes (b : Bytes) : Puts (fun w => .ok (w.writeBytes b)) (Item.str b).encode :=
  .raw fun h _ => EncBuffer.writeBytes_eq (Nat.lt_of_le_of_lt Item.length_le_encodeStr h)

theorem Puts.writeUint64 (i : UInt64) :
    Puts (fun w => .ok (w.writeUint64 i)) (Item.str (bigEndian i.toNat)).encode :=
  .raw fun _ _ => EncBuffer.writeUint64_eq i

theorem Consumes.adaptExcept (h : Consumes p b a) (g : DecodeError → DecodeError) :
    Consumes (p.adaptExcept g) b a := by
  intro s hk hp hr
  have ⟨s', hs, hk', hm⟩ := h s hk hp hr
  exact ⟨s', adaptExcept_ok g hs, hk', hm⟩

theorem Consumes.bind_pure (h : Consumes p b a) (f : α → β) :
    Consumes (do return f (← p)) b (f a) := by
  intro s hk hp hr
  have ⟨s', hs, hk', hm⟩ := h s hk hp hr
  exact ⟨s', by rw [bind_ok hs, pure_apply], hk', hm⟩

theorem Consumes.attempt (h : Consumes p b a) : Consumes (attempt p) b (.ok a) := by
  intro s hk hp hr
  have ⟨s', hs, hk', hm⟩ := h s hk hp hr
  exact ⟨s', attempt_ok hs, hk', hm⟩

theorem Consumes.pure (a : α) : Consumes (Pure.pure a) [] a :=
  fun s hk _ _ => ⟨s, rfl, hk, .refl⟩

theorem Consumes.bind {f : α → Reader β} {r : β} (hp : Consumes p b a) (hf : Consumes (f a) c r) :
    Consumes (p >>= f) (b ++ c) r := by
  intro s hk hb hr
  rw [length_append] at hr ⊢
  obtain ⟨l, hl⟩ := hb
  have ⟨s₁, hs₁, hk₁, hm₁⟩ := hp s hk ⟨c ++ l, by simpa using hl⟩ (hr.mono (Nat.le_add_right ..))
  have ⟨s₂, hs₂, hk₂, hm₂⟩ := hf s₁ hk₁ ⟨l, by simp [hm₁.r, ← hl]⟩ (hm₁.room hr)
  exact ⟨s₂, by rw [bind_ok hs₁, hs₂], hk₂, hm₁.trans hm₂⟩

-- The same for the content of a list, the end of which can be noticed.
def Finishes (p : Reader α) (b : Bytes) (a : α) : Prop :=
  ∀ s, s.kind = none → b <+: s.r → s.Room b.length → s.listLimit = some b.length →
    ∃ s', p s = .ok a s' ∧ s'.kind = none ∧ s.Moved b.length s'

theorem Finishes.bind_pure (h : Finishes p b a) (f : α → β) :
    Finishes (do return f (← p)) b (f a) := by
  intro s hk hp hr hl
  obtain ⟨s', hs, hk', hm⟩ := h s hk hp hr hl
  exact ⟨s', by rw [bind_ok hs, pure_apply], hk', hm⟩

theorem Consumes.finishes (h : Consumes p b a) : Finishes p b a :=
  fun s hk hp hr _ => h s hk hp hr

theorem Consumes.bind_finishes {f : α → Reader β} {r : β} (hp : Consumes p b a)
    (hf : Finishes (f a) c r) : Finishes (p >>= f) (b ++ c) r := by
  intro s hk hb hr hl
  rw [length_append] at hr hl ⊢
  obtain ⟨l, hb⟩ := hb
  obtain ⟨s₁, hs₁, hk₁, hm₁⟩ := hp s hk ⟨c ++ l, by simpa using hb⟩ (hr.mono (Nat.le_add_right ..))
  obtain ⟨s₂, hs₂, hk₂, hm₂⟩ := hf s₁ hk₁ ⟨l, by simp [hm₁.r, ← hb]⟩ (hm₁.room hr) (hm₁.listLimit hl)
  exact ⟨s₂, by rw [bind_ok hs₁, hs₂], hk₂, hm₁.trans hm₂⟩

-- A list is read by reading its content.
theorem Consumes.list (p : Nat → Reader α) {q : Reader Unit} (g : DecodeError → DecodeError)
    (k : α → β) (hb : b.length < 2 ^ 64)
    (hp : Finishes (p b.length) b a) (hq : ∀ s s', Stream.listEnd s = .ok () s' → q s = .ok () s') :
    Consumes (do
      let size ← Stream.list.adaptExcept g
      let a ← p size
      q
      return k a) (header 0xC0 0xF7 b.length ++ b) (k a) := by
  intro s hk hs hr
  have ⟨s₁, hs₁, hk₁, hb₁, hr₁, hl₁, he⟩ := Stream.list_ok hb hk hs hr
  have ⟨s₂, hs₂, _, hm₂⟩ := hp s₁ hk₁ hb₁ hr₁ hl₁
  have ⟨s₃, hs₃, hk₃, hm₃⟩ := he s₂ hm₂
  refine ⟨s₃, ?_, hk₃, hm₃⟩
  rw [bind_ok (adaptExcept_ok g hs₁), bind_ok hs₂, bind_ok (hq s₂ s₃ hs₃), pure_apply]

-- At the end of the list, the reader reports just that.
def StopsAtEnd (p : Reader α) : Prop :=
  ∀ s, s.kind = none → s.listLimit = some 0 → p s = .error .eol s

theorem StopsAtEnd.finishes {f : Except DecodeError α → Reader β} {r : β} (h : StopsAtEnd p)
    (hf : f (.error .eol) = Pure.pure r) : Finishes (attempt p >>= f) [] r := by
  intro s hk _ _ hl
  refine ⟨s, ?_, hk, .refl⟩
  rw [bind_ok (attempt_error (h s hk hl)), hf]
  rfl

-- The reader begins with the kind of the value ahead, so that it may already be known.
def Peeks (p : Reader α) : Prop :=
  ∀ s k n s', Stream.getKind s = .ok (k, n) s' → p s' = p s

namespace Peeks

theorem getKind : Peeks Stream.getKind :=
  fun _ _ _ _ h => (Stream.getKind_cached h).trans h.symm

theorem bind {p : Reader α} (h : Peeks p) (f : α → Reader β) : Peeks (p >>= f) := by
  intro s k n s' hs
  simp only [Bind.bind, EStateM.bind, h s k n s' hs]

theorem readBytes (n : Nat) : Peeks (Stream.readBytes n) :=
  getKind.bind _

theorem adaptExcept {p : Reader α} (h : Peeks p) (g : DecodeError → DecodeError) :
    Peeks (p.adaptExcept g) := by
  intro s k n s' hs
  simp only [EStateM.adaptExcept, h s k n s' hs]

end Peeks

-- The value `a` is written as `item`, and reading `item` into `old` results in `a'`.
structure TypeInfo.Transfers (t : TypeInfo α) (old a a' : α) (item : Item) : Prop where
  writes : Puts (t.writer a) item.encode
  reads : item.encode.length < 2 ^ 64 → Consumes (t.decoder old) item.encode a'

namespace TypeInfo

theorem uint64_transfers (old a : UInt64) :
    uint64.Transfers old a a (.str (bigEndian a.toNat)) where
  writes := .writeUint64 a
  reads _ := by
    have hl : (bigEndian a.toNat).length ≤ 64 / 8 := bigEndian_length_le.mpr a.toNat_lt
    have hc := (Stream.uint_consumes a.toNat_lt hl).adaptExcept (.wrapStreamError "uint64")
    have hc' := hc.bind_pure UInt64.ofNat
    rwa [UInt64.ofNat_toNat] at hc'

theorem uint64_stopsAtEnd (old : UInt64) : StopsAtEnd (uint64.decoder old) := by
  intro s hk hl
  have he : Stream.uint 64 s = .error .eol s := bind_error (Stream.getKind_eol hk hl)
  exact bind_error (adaptExcept_error _ he)

theorem bool_transfers (old a : Bool) : bool.Transfers old a a (.str (bigEndian a.toNat)) where
  writes := .raw fun _ _ => EncBuffer.writeBool_eq a
  reads _ := (Stream.bool_consumes a).adaptExcept _

theorem u256IntPtr_transfers (old : Option (BitVec 256)) (z : BitVec 256) :
    u256IntPtr.Transfers old (some z) (some z) (.str (bigEndian z.toNat)) where
  writes := .raw fun _ _ => EncBuffer.writeUint256_eq z
  reads _ := ((Stream.readUint256_consumes z).adaptExcept _).bind_pure some

theorem ofBytes_transfers (typ : String) (old b : Bytes) :
    (ofBytes typ).Transfers old b b (.str b) where
  writes := .writeBytes b
  reads h := (Stream.bytes_consumes (Nat.lt_of_le_of_lt Item.length_le_encodeStr h)).adaptExcept _

theorem ofBytes_stopsAtEnd (typ : String) (old : Bytes) :
    StopsAtEnd ((ofBytes typ).decoder old) := by
  intro s hk hl
  have he : Stream.bytes s = .error .eol s := bind_error (Stream.getKind_eol hk hl)
  exact adaptExcept_error _ he

theorem bigIntPtr_transfers (old : Option Int) {i : Int} (hi : 0 ≤ i) :
    bigIntPtr.Transfers old (some i) (some i) (.str (bigEndian i.toNat)) where
  writes := by
    have hw : bigIntPtr.writer (some i) = fun w => .ok (w.writeBigInt i.toNat) := by
      funext w
      exact if_neg (Int.not_lt.mpr hi)
    rw [hw]
    exact .raw fun h _ => EncBuffer.writeBigInt_eq _ (Nat.lt_of_le_of_lt Item.length_le_encodeStr h)
  reads h := by
    have hl := Nat.lt_of_le_of_lt Item.length_le_encodeStr h
    have hc := (Stream.decodeBigInt_consumes hl).adaptExcept (.wrapStreamError "*big.Int")
    have hc' := hc.bind_pure fun i => some (i : Int)
    rwa [Int.toNat_of_nonneg hi] at hc'

-- There is no difference between no number and zero.
theorem bigIntPtr_transfers_none (old : Option Int) :
    bigIntPtr.Transfers old none (some 0) (.str (bigEndian 0)) where
  writes := .raw fun _ w => EncBuffer.append_eq_put w _
  reads := (bigIntPtr_transfers old (Int.le_refl 0)).reads

theorem writeByteArray_eq {n : Nat} (a : ByteArr n) (h : n < 2 ^ 64) (w : EncBuffer) :
    writeByteArray a w = w.put (.raw (Item.encodeStr a.val) .nil) := by
  rw [← EncBuffer.writeBytes_eq (by rwa [a.property])]
  obtain ⟨b, hb⟩ := a
  unfold writeByteArray EncBuffer.writeBytes
  match b with
  | []          => simp [EncBuffer.encodeStringHeader]
  | [x]         => simp [EncBuffer.encodeStringHeader]
  | _ :: _ :: _ => rfl

theorem decodeByteArray_consumes (typ : String) {n : Nat} (old a : ByteArr n) (h : n < 2 ^ 64) :
    Consumes (decodeByteArray typ old) (Item.encodeStr a.val) a := by
  have ha := a.copy_val
  have hn := a.property
  generalize a.val = b at ha hn ⊢
  subst ha hn
  intro s hk hp hr
  unfold decodeByteArray
  obtain ⟨x, s', rfl, _, hs, rfl, hm⟩ | ⟨hb, s', hs, hp', hr', hm⟩ := Stream.getKind_str h hk hp hr
  case inl =>
    rw [bind_ok hs]
    exact ⟨{ s' with kind := none }, rfl, rfl, { hm with }⟩
  case inr =>
    have hc {s} := adaptExcept_ok (DecodeError.wrapStreamError typ) (Stream.checkCanonSize_ok (s := s) hb)
    rw [bind_ok hs]
    simp only [gt_iff_lt, lt_self_iff_false, if_false]
    rw [bind_ok (Stream.readFull_ok hr' hp'), bind_ok hc, pure_apply]
    exact ⟨_, rfl, rfl, hm _ Stream.consume_moved⟩

theorem byteArray_transfers (typ : String) {n : Nat} (old a : ByteArr n) :
    (byteArray typ n).Transfers old a a (.str a.val) where
  writes := .raw fun h w => by
    have hl := Nat.lt_of_le_of_lt Item.length_le_encodeStr h
    exact writeByteArray_eq a (by rwa [a.property] at hl) w
  reads h := by
    have hl := Nat.lt_of_le_of_lt Item.length_le_encodeStr h
    exact decodeByteArray_consumes typ old a (by rwa [a.property] at hl)

theorem byteArray_stopsAtEnd (typ : String) {n : Nat} (old : ByteArr n) :
    StopsAtEnd ((byteArray typ n).decoder old) :=
  fun _ hk hl => bind_error (Stream.getKind_eol hk hl)

theorem byteArray_peeks (typ : String) {n : Nat} (old : ByteArr n) :
    Peeks ((byteArray typ n).decoder old) :=
  Peeks.getKind.bind _

section Pointers

variable {t : TypeInfo α}

-- What is not empty is read as a value.
theorem nilPtr_transfers (nilKind : Kind) (old : Option α) (hb : b ≠ [])
    (ht : ∀ old, t.Transfers old a a (.str b)) (hp : ∀ old, Peeks (t.decoder old)) :
    (nilPtr nilKind t).Transfers old (some a) (some a) (.str b) where
  writes := (ht t.zero).writes
  reads h := by
    intro s hk hs hr
    obtain ⟨s₂, hd, hk₂, hm⟩ := (ht (old.getD t.zero)).reads h s hk hs hr
    have hg : ∃ k n s₁, Stream.getKind s = .ok (k, n) s₁ ∧ ¬(k ≠ .byte ∧ n = 0) := by
      have hl := Nat.lt_of_le_of_lt Item.length_le_encodeStr h
      obtain ⟨x, s₁, -, -, hg, -⟩ | ⟨-, s₁, hg, -⟩ := Stream.getKind_str hl hk hs hr
      case inl => exact ⟨_, _, s₁, hg, fun h => h.left rfl⟩
      case inr => exact ⟨_, _, s₁, hg, fun h => hb (length_eq_zero_iff.mp h.right)⟩
    obtain ⟨k, n, s₁, hg, hn⟩ := hg
    refine ⟨s₂, ?_, hk₂, hm⟩
    simp only [nilPtr, decodeNilPtr]
    rw [bind_ok (adaptExcept_ok _ hg)]
    dsimp only
    rw [if_neg hn, bind_ok ((hp _ s k n s₁ hg).trans hd), pure_apply]

theorem ptr_stopsAtEnd (nilKind : Kind) (old : Option α)
    (h : StopsAtEnd (t.decoder (old.getD t.zero))) : StopsAtEnd ((ptr nilKind t).decoder old) :=
  fun s hk hl => bind_error (h s hk hl)

theorem ptr_transfers (nilKind : Kind) (old : Option α)
    (ht : t.Transfers (old.getD t.zero) a a' item) :
    (ptr nilKind t).Transfers old (some a) (some a') item where
  writes := ht.writes
  reads h := (ht.reads h).bind_pure some

theorem nilPtr_transfers_none (t : TypeInfo α) (old : Option α) :
    (nilPtr .string t).Transfers old none none (.str []) where
  writes := .raw fun _ w => EncBuffer.append_eq_put w _
  reads _ := by
    intro s hk hs hr
    obtain ⟨_, _, hb, -⟩ | ⟨-, s₁, hg, -, -, hm⟩ := Stream.getKind_str (by decide) hk hs hr
    case inl => cases hb
    case inr =>
      refine ⟨{ s₁ with kind := none }, ?_, rfl, hm _ { Stream.Moved.refl with }⟩
      simp only [nilPtr, decodeNilPtr]
      rw [bind_ok (adaptExcept_ok _ hg)]
      rfl

end Pointers

section Lists

variable {t : TypeInfo α} {l : List α} {f : α → Item}

theorem writeSlice_puts (h : ∀ x ∈ l, Puts (t.writer x) (f x).encode) :
    Puts (writeSlice t.writer l) (Item.list (l.map f)).encode := by
  unfold writeSlice
  split
  case isTrue hl =>
    rw [length_eq_zero_iff.mp hl]
    exact .raw fun _ => fun w => EncBuffer.append_eq_put w _
  case isFalse =>
    have hp : Puts (l.foldlM (fun w a => t.writer a w) ·) (Item.encodeAll (l.map f)) := by
      apply Puts.foldlM
      rw [forall₂_map_right_iff, forall₂_same]
      exact h
    exact hp.list

theorem decodeSliceElems_finishes (ht : ∀ x ∈ l, ∀ old, t.Transfers old x x (f x))
    (he : ∀ old, StopsAtEnd (t.decoder old)) {fuel : Nat} (hf : l.length < fuel) (old : List α)
    (i : Nat) (hb : (Item.encodeAll (l.map f)).length < 2 ^ 64) :
    Finishes (decodeSliceElems t fuel old i) (Item.encodeAll (l.map f)) l := by
  induction l generalizing fuel old i
  all_goals obtain ⟨fuel, rfl⟩ := Nat.exists_eq_succ_of_ne_zero (Nat.ne_zero_of_lt hf)
  case nil => exact (he (old.headD t.zero)).finishes rfl
  case cons x l hi =>
    rw [map_cons, Item.encodeAll, length_append] at hb
    have hx := (ht x mem_cons_self (old.headD t.zero)).reads (by omega)
    have hc := hi (fun x hx => ht x (mem_cons_of_mem _ hx)) (Nat.lt_of_succ_lt_succ hf)
      old.tail (i + 1) (by omega)
    exact hx.attempt.bind_finishes (hc.bind_pure (x :: ·))

theorem namedSlice_transfers (typ : String) (old l : List α)
    (ht : ∀ x ∈ l, ∀ old, t.Transfers old x x (f x)) (he : ∀ old, StopsAtEnd (t.decoder old)) :
    (namedSlice typ t).Transfers old l l (.list (l.map f)) where
  writes := writeSlice_puts fun x hx => (ht x hx t.zero).writes
  reads h := by
    rw [Item.encode, length_append] at h
    have hb : (Item.encodeAll (l.map f)).length < 2 ^ 64 := by omega
    refine .list (fun size => if size = 0 then pure [] else decodeSliceElems t (size + 1) old 0)
      (.wrapStreamError typ) id hb ?_ fun _ _ => id
    have hn : l.length ≤ (Item.encodeAll (l.map f)).length := by
      simpa using @Item.length_le_encodeAll (l.map f)
    split
    case isTrue hz =>
      have hl : l = [] := length_eq_zero_iff.mp (by omega)
      subst hl
      exact (Consumes.pure _).finishes
    case isFalse => exact decodeSliceElems_finishes ht he (by omega) old 0 hb

theorem slice_transfers (old l : List α) (ht : ∀ x ∈ l, ∀ old, t.Transfers old x x (f x))
    (he : ∀ old, StopsAtEnd (t.decoder old)) : t.slice.Transfers old l l (.list (l.map f)) :=
  namedSlice_transfers _ old l ht he

theorem decodeArrayElems_consumes (typ : String) (ht : ∀ x ∈ l, ∀ old, t.Transfers old x x (f x))
    (old : List α) (hl : l.length = old.length) (i : Nat)
    (hb : (Item.encodeAll (l.map f)).length < 2 ^ 64) :
    Consumes (decodeArrayElems typ t old i) (Item.encodeAll (l.map f)) ⟨l, hl⟩ := by
  induction l generalizing old i
  case nil =>
    cases old
    case nil  => exact .pure _
    case cons => simp at hl
  case cons x l hi =>
    cases old
    case nil => simp at hl
    case cons o old =>
      rw [map_cons, Item.encodeAll, length_append] at hb
      have hx := (ht x mem_cons_self o).reads (by omega)
      have hc := hi (fun x hx => ht x (mem_cons_of_mem _ hx)) old (Nat.succ.inj hl) (i + 1)
        (by omega)
      exact hx.attempt.bind (hc.bind_pure _)

theorem array_transfers (typ : String) {n : Nat} (old a : GoArray α n)
    (ht : ∀ x ∈ a.val, ∀ old, t.Transfers old x x (f x)) :
    (array typ n t).Transfers old a a (.list (a.val.map f)) where
  writes := writeSlice_puts fun x hx => (ht x hx t.zero).writes
  reads h := by
    rw [Item.encode, length_append] at h
    have hl : a.val.length = old.val.length := a.property.trans old.property.symm
    have hc := decodeArrayElems_consumes typ ht old.val hl 0 (by omega)
    exact .list (fun _ => decodeArrayElems typ t old.val 0) (.wrapStreamError typ)
      (fun l => (⟨l.val, l.property.trans old.property⟩ : GoArray α n)) (by omega)
      hc.finishes fun _ _ => adaptExcept_ok (DecodeError.wrapStreamError typ)

end Lists

end TypeInfo

section Structs

structure Field.Transfers (f : Field α) (old a a' : α) (item : Item) : Prop where
  writes : Puts (f.writer a) item.encode
  reads : item.encode.length < 2 ^ 64 → Consumes (f.decoder old) item.encode a'

-- The fields of a struct are read one after the other, each into what the previous one has left.
inductive FieldsTransfer (a : α) : List (Field α) → α → α → List Item → Prop
  | nil {old} : FieldsTransfer a [] old old []
  | cons {f fields old mid a' item items} : Field.Transfers f old a mid item →
    FieldsTransfer a fields mid a' items → FieldsTransfer a (f :: fields) old a' (item :: items)

variable {fields : List (Field α)} {old : α}

theorem Field.Transfers.of {name : String} {t : TypeInfo β} {get : α → β} {set : α → β → α} {b : β}
    (h : t.Transfers (get old) (get a) b item) :
    (Field.of name t get set).Transfers old a (set old b) item where
  writes := h.writes
  reads h' := (h.reads h').bind_pure _

theorem Field.stopsAtEnd_of {name : String} {t : TypeInfo β} {get : α → β} {set : α → β → α}
    (h : StopsAtEnd (t.decoder (get old))) : StopsAtEnd ((Field.of name t get set).decoder old) :=
  fun s hk hl => bind_error (h s hk hl)

namespace FieldsTransfer

theorem puts (h : FieldsTransfer a fields old a' items) :
    List.Forall₂ (fun f item => Puts (f.writer a) item.encode) fields items := by
  induction h
  case nil          => exact .nil
  case cons hf _ hi => exact .cons hf.writes hi

theorem consumes (typ : String) (h : FieldsTransfer a fields old a' items)
    (hb : (Item.encodeAll items).length < 2 ^ 64) :
    Consumes (decodeFields typ fields old) (Item.encodeAll items) a' := by
  induction h
  case nil => exact .pure _
  case cons hf _ hi =>
    rw [Item.encodeAll, length_append] at hb
    exact (hf.reads (by omega)).attempt.bind (hi (by omega))

end FieldsTransfer

theorem TypeInfo.struct_transfers (typ : String) (zero : α)
    (h : FieldsTransfer a fields old a' items) :
    (TypeInfo.struct typ zero fields).Transfers old a a' (.list items) where
  writes := (Puts.foldlM h.puts).list
  reads h' := by
    rw [Item.encode, length_append] at h'
    have hc := h.consumes typ (by omega)
    exact .list (fun _ => decodeFields typ fields old) (.wrapStreamError typ) id (by omega)
      hc.finishes fun _ _ => adaptExcept_ok (DecodeError.wrapStreamError typ)

-- The list may end before any of the optional fields.
inductive OptionalTransfer (a : α) : List (OptionalField α) → α → α → List Item → Prop
  | nil {o} : OptionalTransfer a [] o o []
  | stop {f : OptionalField α} {fs o} : StopsAtEnd (f.decoder o) →
    OptionalTransfer a (f :: fs) o ((f :: fs).foldl (fun val f => f.clear val) o) []
  | cons {f fs o m r i is} : Field.Transfers f.toField o a m i →
    OptionalTransfer a fs m r is → OptionalTransfer a (f :: fs) o r (i :: is)

theorem OptionalTransfer.finishes {optional : List (OptionalField α)}
    (h : OptionalTransfer a optional old a' items) (hb : (Item.encodeAll items).length < 2 ^ 64) :
    Finishes (decodeOptionalFields optional old) (Item.encodeAll items) a' := by
  induction h
  case nil     => exact (Consumes.pure _).finishes
  case stop he => exact he.finishes rfl
  case cons hf _ hi =>
    rw [Item.encodeAll, length_append] at hb
    exact (hf.reads (by omega)).attempt.bind_finishes (hi (by omega))

theorem TypeInfo.optionalStruct_reads (typ : String) (zero : α) {optional : List (OptionalField α)}
    {mid : α} {items' : List Item} (h : FieldsTransfer a fields old mid items)
    (h' : OptionalTransfer a optional mid a' items')
    (hb : (Item.list (items ++ items')).encode.length < 2 ^ 64) :
    Consumes ((TypeInfo.optionalStruct typ zero fields optional).decoder old)
      (Item.list (items ++ items')).encode a' := by
  have hb' := Nat.lt_of_le_of_lt Item.encodeAll_length_le hb
  have hl := hb'
  rw [Item.encodeAll_append, length_append] at hl
  have hd := (h.consumes typ (by omega)).bind_finishes (h'.finishes (by omega))
  rw [← Item.encodeAll_append] at hd
  have hc := Consumes.list (fun _ => decodeFields typ fields old >>= decodeOptionalFields optional)
    (.wrapStreamError typ) id hb' hd fun _ _ => adaptExcept_ok (DecodeError.wrapStreamError typ)
  simp only [bind_assoc] at hc
  exact hc

theorem TypeInfo.struct_stopsAtEnd (typ : String) (zero : α) (fields : List (Field α)) (old : α) :
    StopsAtEnd ((TypeInfo.struct typ zero fields).decoder old) := by
  intro s hk hl
  have he : Stream.list s = .error .eol s := bind_error (Stream.getKind_eol hk hl)
  exact bind_error <| adaptExcept_error _ he

theorem TypeInfo.struct_peeks (typ : String) (zero : α) (fields : List (Field α)) (old : α) :
    Peeks ((TypeInfo.struct typ zero fields).decoder old) :=
  ((Peeks.getKind.bind _).adaptExcept _).bind _

end Structs

theorem TypeInfo.Transfers.decode {old : α} {s : Stream} (h : t.Transfers old a a' item)
    (hb : item.encode.length < 2 ^ 64) (hs : s.Toplevel)
    (hp : item.encode <+: s.r) :
    ∃ s', Stream.decode t old s = .ok a' s' ∧ s'.Toplevel ∧ s'.r = s.r.drop item.encode.length := by
  obtain ⟨s', hd, hk, hm⟩ := h.reads hb s hs.kind hp hs.room
  exact ⟨s', adaptExcept_ok _ hd, hs.moved hm hk, hm.r⟩

theorem struct_decode_eof {typ : String} {zero old : α} {fields : List (Field α)} {s : Stream}
    (hs : s.Toplevel) (hr : s.r = []) :
    ∃ s', Stream.decode (.struct typ zero fields) old s = .error .eof s' := by
  obtain ⟨s', hk⟩ := Stream.getKind_eof hs hr
  have hl : Stream.list s = .error .eof s' := bind_error hk
  exact ⟨s', adaptExcept_error _ <| bind_error <| adaptExcept_error _ hl⟩

theorem Puts.encodeToBytes (h : Puts (t.writer a) b) (hb : b.length < 2 ^ 64) :
    encodeToBytes t a = .ok b := by
  have ⟨o, ho, hw⟩ := h hb
  rw [Rlp.encodeToBytes, hw, ← ho, ← EncBuffer.makeBytes_put (ho ▸ hb)]
  rfl

theorem Consumes.decodeBytes {old : α} (h : Consumes (t.decoder old) b a) :
    decodeBytes t b old = .ok a := by
  have hr : (Stream.reset b b.length).Room b.length := ⟨by simp [Stream.reset], fun _ => Nat.le_refl _⟩
  obtain ⟨s, hs, _, hm⟩ := h _ rfl (prefix_refl _) hr
  have hd : Stream.decode t old (.reset b b.length) = .ok a s := adaptExcept_ok _ hs
  have hl : s.r = [] := by simp [hm.r, Stream.reset]
  simp [Rlp.decodeBytes, hd, hl]

theorem decodeBytes_encodeToBytes {old : α} (h : t.Transfers old a a' item)
    (hb : item.encode.length < 2 ^ 64) :
    encodeToBytes t a = .ok item.encode ∧ decodeBytes t item.encode old = .ok a' :=
  ⟨h.writes.encodeToBytes hb, (h.reads hb).decodeBytes⟩

end Rlp
