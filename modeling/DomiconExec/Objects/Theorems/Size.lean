import DomiconExec.Objects.Theorems.Transaction

open List Bytes Program Rlp TypeInfo

namespace Rlp

variable {α : Type} {fields : List (Field α)} {a : α}

def Field.Writes (f : Field α) (a : α) : Prop :=
  ∃ w w', f.writer a w = .ok w'

theorem of_encodeToBytes_struct {typ : String} {zero : α} {b : Bytes}
    (h : encodeToBytes (.struct typ zero fields) a = .ok b) : fields.Forall (·.Writes a) := by
  simp only [encodeToBytes, struct, writeStruct, bind, Except.bind] at h
  generalize hw : fields.foldlM (fun w f => f.writer a w) EncBuffer.empty.list.fst = r at h
  cases r
  case error => cases h
  case ok w' => exact forall_iff_forall_mem.mpr fun f hf => Loop.foldlM_ok_mem hw hf

theorem Field.Writes.natural {name : String} {get : α → Option Int} {set : α → Option Int → α}
    {i : Int} (h : (Field.of name bigIntPtr get set).Writes a) (hi : get a = some i) :
    Natural (get a) := by
  obtain ⟨w, w', hw⟩ := h
  by_cases hn : i < 0
  case pos => simp [Field.of, bigIntPtr, writeBigIntPtr, hi, hn] at hw
  case neg => exact ⟨i.toNat, by rw [hi, Int.toNat_of_nonneg (Int.not_lt.mp hn)]⟩

end Rlp

section Copies

variable {b : Bytes}

theorem LegacyTx.copy_sound {tx : LegacyTx} (h : encodeToBytes info tx.copy = .ok b) :
    tx.copy.Sound := by
  obtain ⟨-, gasPrice, -, -, value, -, v, r, s⟩ := of_encodeToBytes_struct h
  exact ⟨gasPrice.natural rfl, value.natural rfl, v.natural rfl, r.natural rfl, s.natural rfl⟩

theorem AccessListTx.copy_sound {tx : AccessListTx} (h : encodeToBytes info tx.copy = .ok b) :
    tx.copy.Sound := by
  obtain ⟨chainID, -, gasPrice, -, -, value, -, -, v, r, s⟩ := of_encodeToBytes_struct h
  exact ⟨chainID.natural rfl, gasPrice.natural rfl, value.natural rfl, v.natural rfl, r.natural rfl,
    s.natural rfl⟩

theorem DynamicFeeTx.copy_sound {tx : DynamicFeeTx} (h : encodeToBytes info tx.copy = .ok b) :
    tx.copy.Sound := by
  obtain ⟨chainID, -, tip, fee, -, -, value, -, -, v, r, s⟩ := of_encodeToBytes_struct h
  exact ⟨chainID.natural rfl, tip.natural rfl, fee.natural rfl, value.natural rfl, v.natural rfl,
    r.natural rfl, s.natural rfl⟩

theorem BlobTx.copy_sound (tx : BlobTx) : tx.copy.Sound :=
  ⟨⟨_, rfl⟩, ⟨_, rfl⟩, ⟨_, rfl⟩, ⟨_, rfl⟩, ⟨_, rfl⟩, ⟨_, rfl⟩, ⟨_, rfl⟩, ⟨_, rfl⟩⟩

theorem SubmitTx.copy_sound {tx : SubmitTx} (h : encodeToBytes info tx.copy = .ok b) :
    tx.copy.Sound := by
  obtain ⟨-, -, -, value, -, -, -⟩ := of_encodeToBytes_struct h
  exact ⟨value.natural rfl⟩

theorem Transaction.new_sound {inner : TxData} (h : (new inner).marshalBinary = .ok b) :
    inner.copy.Sound := by
  cases inner
  case legacy tx => exact LegacyTx.copy_sound h
  case typed tx =>
    simp only [marshalBinary, new, setDecoded, TxData.copy, encodeTyped, bind, Except.bind] at h
    cases he : tx.copy.encode
    case error => simp [he] at h
    case ok c =>
      cases tx
      case accessList tx => exact AccessListTx.copy_sound he
      case dynamicFee tx => exact DynamicFeeTx.copy_sound he
      case blob tx       => exact tx.copy_sound
      case submit tx     => exact SubmitTx.copy_sound he

end Copies

theorem bytesSizes_eq {n : Nat} (l : List (ByteArr n)) (size : Nat)
    (h : (Item.encodeAll (l.map fun a => .str a.val)).length < 2 ^ 64) :
    l.foldl (fun size a => size + Raw.bytesSize a.val) size =
      size + (Item.encodeAll (l.map fun a => .str a.val)).length := by
  induction l generalizing size
  case nil => rfl
  case cons a l hi =>
    rw [map_cons, Item.encodeAll, length_append, Item.encode] at h ⊢
    have hl := @Item.length_le_encodeStr a.val
    rw [foldl_cons, hi _ (by omega), Raw.bytesSize_eq (by omega), Nat.add_assoc]

theorem listSize_bytesSizes {n : Nat} (l : List (ByteArr n))
    (h : (ByteArr.items l).encode.length < 2 ^ 64) :
    Raw.listSize (l.foldl (fun size a => size + Raw.bytesSize a.val) 0) =
      (ByteArr.items l).encode.length := by
  have hc := Nat.lt_of_le_of_lt Item.encodeAll_length_le h
  rw [bytesSizes_eq l 0 hc, Nat.zero_add, Raw.listSize_eq hc, ← length_append]
  rfl

theorem BlobTxSidecar.encodedSize_eq {sc : BlobTxSidecar}
    (h : (Item.encodeAll sc.items).length < 2 ^ 64) :
    sc.encodedSize = (Item.encodeAll sc.items).length := by
  simp only [items, Item.encodeAll, length_append, length_nil] at h ⊢
  simp only [encodedSize]
  rw [listSize_bytesSizes _ (by omega), listSize_bytesSizes _ (by omega),
    listSize_bytesSizes _ (by omega)]
  omega

-- The transaction is what makes the header of the outer list longer than that of the sidecar alone.
def TxData.Straddles : TxData → Prop
  | typed (.blob tx) => ∃ sc, tx.sidecar = some sc ∧ ∃ t ∈ Raw.thresholds,
      sc.encodedSize < t ∧ t ≤ tx.item.encode.length + sc.encodedSize
  | _                => False

theorem TxData.binary_length_pos (d : TxData) : 0 < d.binary.length := by
  cases d
  case legacy tx => exact Item.encode_length_pos _
  case typed tx  => exact Nat.succ_pos _

theorem TypedTx.txType_ne_zero (tx : TypedTx) : tx.txType ≠ 0x00 := by
  cases tx <;> exact of_decide_eq_true rfl

namespace Transaction

variable {tx : Transaction} {inner : TxData}

theorem getSize_blob {tx : BlobTx} {sc : BlobTxSidecar} (h : tx.Sound)
    (hs : tx.sidecar = some sc) (hb : tx.payload.encode.length < 2 ^ 64) :
    (getSize ⟨.typed (.blob tx), none⟩).fst = tx.payload.encode.length + 1 ↔
      ¬(TxData.typed (.blob tx)).Straddles := by
  rw [BlobTx.payload_of_some hs] at hb ⊢
  have hc := Nat.lt_of_le_of_lt Item.encodeAll_length_le hb
  have ha : (Item.encodeAll (tx.item :: sc.items)).length =
      tx.item.encode.length + (Item.encodeAll sc.items).length := by
    rw [Item.encodeAll, length_append]
  have hsc : (Item.encodeAll sc.items).length < 2 ^ 64 := by omega
  have he := (BlobTx.transfers .zero h).writes.encodeToBytes (by omega)
  have hl : (getSize ⟨.typed (.blob tx), none⟩).fst =
      tx.item.encode.length + Raw.listSize sc.encodedSize + 1 := by
    have hi : (TxData.typed (.blob tx)).encodeInner = .ok tx.item.encode := he
    have hsc : blobTxSidecar ⟨.typed (.blob tx), none⟩ = some sc := hs
    have ht : (TxData.typed (.blob tx)).txType ≠ 0x00 := (TypedTx.blob tx).txType_ne_zero
    simp only [getSize, hi, hsc, ne_eq, ht, not_false_eq_true, if_true]
  have hst : (TxData.typed (.blob tx)).Straddles ↔ ∃ t ∈ Raw.thresholds,
      sc.encodedSize < t ∧ t ≤ tx.item.encode.length + sc.encodedSize := by
    simp only [TxData.Straddles, hs, Option.some.injEq, exists_eq_left']
  have hh := @Raw.header_length_eq_iff (Item.encodeAll (tx.item :: sc.items)).length 0xC0 0xF7
    (Item.encodeAll sc.items).length (by omega) hc
  rw [hl, hst, BlobTxSidecar.encodedSize_eq hsc, Raw.listSize_eq hsc, Item.encode,
    length_append, ← ha]
  calc
    _ ↔ (header 0xC0 0xF7 (Item.encodeAll sc.items).length).length =
        (header 0xC0 0xF7 (Item.encodeAll (tx.item :: sc.items)).length).length := by omega
    _ ↔ _ := hh
    _ ↔ _ := by
      simp only [not_exists, not_and, not_le]
      refine forall₂_congr fun t _ => ?_
      rw [← not_imp_not, not_le, not_le]

-- Only the outer list of a transaction with a sidecar is accounted for by its parts.
theorem getSize_of_none (h : tx.size = none) (hs : tx.inner.Sound)
    (hb : tx.inner.binary.length < 2 ^ 64) :
    tx.getSize.fst = tx.inner.binary.length ↔ ¬tx.inner.Straddles := by
  obtain ⟨inner, size⟩ := tx
  cases h
  cases inner
  case legacy tx =>
    have he : (TxData.legacy tx).encodeInner = .ok tx.item.encode :=
      (LegacyTx.transfers .zero hs).writes.encodeToBytes hb
    have hl : (getSize ⟨.legacy tx, none⟩).fst = tx.item.encode.length := by
      simp only [getSize, he]
      rfl
    exact iff_of_true hl id
  case typed tx =>
    have hb' := Nat.lt_of_succ_lt hb
    have hl {tx : TypedTx} (he : (TxData.typed tx).encodeInner = .ok tx.item.encode)
        (hs : blobTxSidecar ⟨.typed tx, none⟩ = none) :
        (getSize ⟨.typed tx, none⟩).fst = (TxData.typed tx).binary.length := by
      have ht : (TxData.typed tx).txType ≠ 0x00 := tx.txType_ne_zero
      simp only [getSize, he, hs, ne_eq, ht, not_false_eq_true, if_true]
      rfl
    cases tx
    case accessList tx =>
      exact iff_of_true (hl ((AccessListTx.transfers .zero hs).writes.encodeToBytes hb') rfl) id
    case dynamicFee tx =>
      exact iff_of_true (hl ((DynamicFeeTx.transfers .zero hs).writes.encodeToBytes hb') rfl) id
    case submit tx =>
      exact iff_of_true (hl ((SubmitTx.transfers .zero hs).writes.encodeToBytes hb') rfl) id
    case blob tx =>
      cases hsc : tx.sidecar
      case some sc => exact getSize_blob hs hsc hb'
      case none =>
        have hp : (TypedTx.blob tx).item = tx.item := BlobTx.payload_of_none hsc
        have he := (BlobTx.transfers .zero hs).writes.encodeToBytes (hp ▸ hb')
        refine iff_of_true (hl (hp ▸ he) hsc) ?_
        rintro ⟨sc, h, -⟩
        cases hsc.symm.trans h

theorem getSize_setDecoded {n : Nat} (h : 0 < n) : (setDecoded inner n).getSize.fst = n := by
  simp only [getSize, setDecoded, h, if_true]

end Transaction

namespace Rlp.Stream

-- The kind of the value ahead may already be known.
inductive AtValue : Stream → Prop
  | fresh {s} : s.Bounded → s.kind = none → AtValue s
  | known {s₀ s k n} : s₀.Bounded → s₀.kind = none → getKind s₀ = .ok (k, n) s → AtValue s

theorem AtValue.exists {s : Stream} (h : s.AtValue) : ∃ s₀ : Stream, s₀.Bounded ∧ s₀.kind = none ∧
    ∀ k n s', getKind s = .ok (k, n) s' → getKind s₀ = .ok (k, n) s' := by
  cases h
  case fresh hb hk => exact ⟨s, hb, hk, fun _ _ _ h => h⟩
  case known s₀ k n hb hk hs =>
    refine ⟨s₀, hb, hk, fun _ _ _ h => ?_⟩
    rw [hs, ← getKind_cached hs, h]

theorem length_of_readBytes {n : Nat} {b : Bytes} {s s' : Stream}
    (h : readBytes n s = .ok b s') : b.length = n := by
  obtain ⟨⟨k, m⟩, s₁, -, h⟩ := of_bind_ok h
  cases k
  case list => cases h
  case byte =>
    dsimp only at h
    split at h
    case isTrue => cases h
    case isFalse hn =>
      cases h
      exact (Decidable.not_not.mp hn).symm
  case string =>
    dsimp only at h
    split at h
    case isTrue => cases h
    case isFalse =>
      obtain ⟨b', s₂, hf, h⟩ := of_bind_ok h
      obtain ⟨u, s₃, -, h⟩ := of_bind_ok h
      cases h
      obtain ⟨-, -, -, hl, -⟩ := of_readFull_ok hf
      exact hl

end Rlp.Stream

namespace Transaction

variable {tx : Transaction} {inner : TxData} {b : Bytes}

theorem of_decodeRLP {s s' : Stream} (h : s.AtValue) (hd : decodeRLP s = .ok tx s') :
    tx.inner.Sound ∧ tx.inner.binary.length < 2 ^ 63 ∧
      tx = setDecoded tx.inner tx.inner.binary.length := by
  obtain ⟨s₀, hb, hk, hs⟩ := h.exists
  obtain ⟨⟨k, n⟩, s₁, hg, hd⟩ := of_bind_ok hd
  have hg₀ := hs k n s₁ (of_adaptExcept_ok hg)
  obtain ⟨ht, hn, -⟩ := Stream.took_of_getKind hb hk hg₀
  cases k
  case byte => cases hd
  case list =>
    obtain ⟨inner, s₂, hi, hd⟩ := of_bind_ok hd
    cases hd
    have hi := of_adaptExcept_ok (of_adaptExcept_ok hi)
    have hi := (struct_peeks _ _ _ _ s₀ _ _ s₁ hg₀).symm.trans hi
    obtain ⟨_, ⟨hs, rfl⟩, ht', -⟩ := LegacyTx.strict .zero s₀ inner _ hb hk hi
    have hl := ht'.length_lt hb
    have hl' : inner.item.encode.length < 2 ^ 64 := Nat.lt_trans hl (by decide)
    have hc := Nat.lt_of_le_of_lt Item.encodeAll_length_le hl'
    -- Both readings begin with the same header.
    have he := ht.r.symm.trans ht'.r
    have hn : n = (Item.encodeAll inner.items).length :=
      Raw.eq_of_header_append hn hc (he.trans (append_assoc ..))
    refine ⟨hs, hl, congrArg (setDecoded _) ?_⟩
    rw [hn, Raw.listSize_eq hc, ← length_append]
    rfl
  case string =>
    dsimp only at hd
    split at hd
    case isTrue => cases hd
    case isFalse hn =>
      obtain ⟨b, s₂, hb, hd⟩ := of_bind_ok hd
      obtain rfl := Stream.length_of_readBytes (of_adaptExcept_ok hb)
      cases hi : decodeTyped b
      case error =>
        rw [hi] at hd
        cases hd
      case ok inner =>
        rw [hi] at hd
        cases hd
        obtain ⟨hs, rfl⟩ := of_decodeTyped (Nat.not_le.mp hn) hi
        exact ⟨hs, Nat.not_le.mp hn, rfl⟩

-- The size is exact, unless the transaction was built with a sidecar and makes the header of the outer
-- list longer.
theorem size_exact_iff (tx : Transaction) :
    (∀ inner b, tx = new inner → tx.marshalBinary = .ok b → tx.inner.binary.length < 2 ^ 63 →
      (tx.getSize.fst = b.length ↔ ¬tx.inner.Straddles)) ∧
    (∀ b, b.length < 2 ^ 63 → unmarshalBinary b = .ok tx →
      ∃ b', tx.marshalBinary = .ok b' ∧ tx.getSize.fst = b'.length) ∧
    (∀ s s', s.AtValue → decodeRLP s = .ok tx s' →
      ∃ b', tx.marshalBinary = .ok b' ∧ tx.getSize.fst = b'.length) := by
  have hd {d : TxData} (hs : d.Sound) (hb : d.binary.length < 2 ^ 63) :
      ∃ b', (setDecoded d d.binary.length).marshalBinary = .ok b' ∧
        (setDecoded d d.binary.length).getSize.fst = b'.length :=
    ⟨_, marshalBinary_eq hs (Nat.lt_trans hb (by decide)), getSize_setDecoded d.binary_length_pos⟩
  refine ⟨?_, ?_, ?_⟩
  case refine_1 =>
    rintro inner b rfl h hb
    have hb' : (new inner).inner.binary.length < 2 ^ 64 := Nat.lt_trans hb (by decide)
    have hs := new_sound h
    cases h.symm.trans (marshalBinary_eq hs hb')
    exact getSize_of_none rfl hs hb'
  case refine_2 =>
    intro b hb h
    obtain ⟨hs, rfl, ht⟩ := of_unmarshalBinary hb h
    rw [ht]
    exact hd hs hb
  case refine_3 =>
    intro s s' ha h
    obtain ⟨hs, hb, ht⟩ := of_decodeRLP ha h
    rw [ht]
    exact hd hs hb

def straddler : TxData :=
  .typed (.blob { BlobTx.zero with data := List.replicate 30 0, sidecar := some ⟨[], [], []⟩ })

theorem size_not_exact :
    ∃ b, (new straddler).marshalBinary = .ok b ∧ b.length = 72 ∧ (new straddler).getSize.fst = 71 :=
  ⟨_, marshalBinary_eq (BlobTx.copy_sound _) (by decide +kernel), by decide +kernel, by decide +kernel⟩

-- The limit is not in effect if it is zero.
theorem decodeRLP_unlimited {d : TxData} (h : d.Sound) (hb : d.envelope.encode.length < 2 ^ 63) :
    ∃ s', (Stream.reset d.envelope.encode 0).AtValue ∧
      decodeRLP (.reset d.envelope.encode 0) = .ok (setDecoded d d.binary.length) s' := by
  obtain ⟨s', hs', -⟩ := decodeRLP_envelope (s := .reset d.envelope.encode 0) h hb rfl
    (prefix_refl _) ⟨by simp [Stream.reset], by simp [Stream.reset]⟩
  exact ⟨s', .fresh ⟨hb, fun _ h => absurd h not_mem_nil⟩ rfl, hs'⟩

theorem carrier_not_straddles : ¬(TxData.typed (.blob carrier)).Straddles := by
  rintro ⟨sc, hs, t, ht, hl, hu⟩
  have hn : ∀ t ∈ Raw.thresholds, t ≤ 131072 ∨ 2 ^ 22 ≤ t := by decide
  have hc := carrier_length
  rw [BlobTx.payload_of_some hs] at hc
  have hp := Nat.lt_of_le_of_lt Item.encodeAll_length_le hc
  rw [Item.encodeAll, length_append] at hp
  rw [BlobTxSidecar.encodedSize_eq (by omega)] at hl hu
  have hb : 131072 ≤ (Item.encodeAll sc.items).length := by
    cases hs
    let blob : Blob := .fill 10
    have hb := @Item.length_le_encodeStr blob.val
    have hi := @Item.encodeAll_length_le [.str blob.val]
    rw [blob.property] at hb
    rw [Item.encodeAll, length_append, Item.encode] at hi
    rw [BlobTxSidecar.items, Item.encodeAll, length_append]
    exact Nat.le_add_right_of_le (Nat.le_trans (Nat.le_add_right_of_le hb) hi)
  have := hn t ht
  omega

-- The size is exact after the transaction was built, and after it was decoded in either framing.
theorem size_exact_iff_carrier :
    (∃ b, (new (.typed (.blob carrier))).marshalBinary = .ok b ∧
      (new (.typed (.blob carrier))).getSize.fst = b.length) ∧
    (∃ b tx b', unmarshalBinary b = .ok tx ∧ tx.inner = .typed (.blob carrier) ∧
      tx.marshalBinary = .ok b' ∧ tx.getSize.fst = b'.length) ∧
    ∃ s s' tx b', decodeRLP s = .ok tx s' ∧ tx.inner = .typed (.blob carrier) ∧
      tx.marshalBinary = .ok b' ∧ tx.getSize.fst = b'.length := by
  have hb := carrier_envelope_length
  have hl := Nat.lt_of_le_of_lt (TxData.binary_length_le _) hb
  have hl' : (TxData.typed (.blob carrier)).binary.length < 2 ^ 64 := Nat.lt_trans hl (by decide)
  refine ⟨?_, ?_, ?_⟩
  case refine_1 =>
    have hm := @marshalBinary_eq (new (.typed (.blob carrier))) carrier_sound hl'
    exact ⟨_, hm, ((size_exact_iff _).left _ _ rfl hm hl).mpr carrier_not_straddles⟩
  case refine_2 =>
    have hu := unmarshalBinary_binary (d := .typed (.blob carrier)) carrier_sound hl'
    obtain ⟨b', hb'⟩ := (size_exact_iff _).right.left _ hl hu
    exact ⟨_, _, b', hu, rfl, hb'⟩
  case refine_3 =>
    obtain ⟨s', ha, hs'⟩ := decodeRLP_unlimited (d := .typed (.blob carrier)) carrier_sound hb
    obtain ⟨b', hb'⟩ := (size_exact_iff _).right.right _ s' ha hs'
    exact ⟨_, s', _, b', hs', rfl, hb'⟩

end Transaction
