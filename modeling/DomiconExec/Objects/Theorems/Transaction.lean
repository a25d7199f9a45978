import DomiconExec.Rlp.Theorems.Raw
import DomiconExec.Rlp.Theorems.Strict
import DomiconExec.Objects.Transaction

open List Bytes Program Rlp TypeInfo

section Items

def UInt64.item (n : UInt64) : Item :=
  .str (bigEndian n.toNat)

def numberItem (i : Option Int) : Item :=
  .str (bigEndian (i.getD 0).toNat)

def UInt256.item (z : Option UInt256) : Item :=
  .str (bigEndian (z.getD 0).toNat)

def Address.item (a : Option Address) : Item :=
  (a.map fun a => .str a.val).getD (.str [])

def ByteArr.items {n : Nat} (l : List (ByteArr n)) : Item :=
  .list (l.map fun a => .str a.val)

def AccessTuple.item (t : AccessTuple) : Item :=
  .list [.str t.address.val, ByteArr.items t.storageKeys]

def AccessList.item (l : AccessList) : Item :=
  .list (l.map AccessTuple.item)

def LegacyTx.items (tx : LegacyTx) : List Item :=
  [
    tx.nonce.item,
    numberItem tx.gasPrice,
    tx.gas.item,
    Address.item tx.toAddr,
    numberItem tx.value,
    .str tx.data,
    numberItem tx.v,
    numberItem tx.r,
    numberItem tx.s
  ]

def LegacyTx.item (tx : LegacyTx) : Item :=
  .list tx.items

def AccessListTx.item (tx : AccessListTx) : Item :=
  .list [
    numberItem tx.chainID,
    tx.nonce.item,
    numberItem tx.gasPrice,
    tx.gas.item,
    Address.item tx.toAddr,
    numberItem tx.value,
    .str tx.data,
    AccessList.item tx.accessList,
    numberItem tx.v,
    numberItem tx.r,
    numberItem tx.s
  ]

def DynamicFeeTx.item (tx : DynamicFeeTx) : Item :=
  .list [
    numberItem tx.chainID,
    tx.nonce.item,
    numberItem tx.gasTipCap,
    numberItem tx.gasFeeCap,
    tx.gas.item,
    Address.item tx.toAddr,
    numberItem tx.value,
    .str tx.data,
    AccessList.item tx.accessList,
    numberItem tx.v,
    numberItem tx.r,
    numberItem tx.s
  ]

def BlobTx.items (tx : BlobTx) : List Item :=
  [
    tx.nonce.item,
    UInt256.item tx.gasTipCap,
    UInt256.item tx.gasFeeCap,
    tx.gas.item,
    .str tx.toAddr.val,
    UInt256.item tx.value,
    .str tx.data,
    AccessList.item tx.accessList,
    UInt256.item tx.blobFeeCap,
    ByteArr.items tx.blobHashes,
    UInt256.item tx.v,
    UInt256.item tx.r,
    UInt256.item tx.s
  ]

def BlobTx.item (tx : BlobTx) : Item :=
  .list (UInt256.item tx.chainID :: tx.items)

def BlobTxSidecar.items (sidecar : BlobTxSidecar) : List Item :=
  [
    ByteArr.items sidecar.blobs,
    ByteArr.items sidecar.commitments,
    ByteArr.items sidecar.proofs
  ]

def SubmitTx.item (tx : SubmitTx) : Item :=
  .list [
    .str tx.sourceHash.val,
    .str tx.fromAddr.val,
    Address.item tx.toAddr,
    numberItem tx.value,
    tx.gas.item,
    .str (bigEndian tx.isSystemTransaction.toNat),
    .str tx.data
  ]

end Items

-- The number is there and is not negative.
def Natural (i : Option Int) : Prop :=
  ∃ n : Nat, i = some (n : Int)

structure LegacyTx.Sound (tx : LegacyTx) : Prop where
  gasPrice : Natural tx.gasPrice
  value : Natural tx.value
  v : Natural tx.v
  r : Natural tx.r
  s : Natural tx.s

structure AccessListTx.Sound (tx : AccessListTx) : Prop where
  chainID : Natural tx.chainID
  gasPrice : Natural tx.gasPrice
  value : Natural tx.value
  v : Natural tx.v
  r : Natural tx.r
  s : Natural tx.s

structure DynamicFeeTx.Sound (tx : DynamicFeeTx) : Prop where
  chainID : Natural tx.chainID
  gasTipCap : Natural tx.gasTipCap
  gasFeeCap : Natural tx.gasFeeCap
  value : Natural tx.value
  v : Natural tx.v
  r : Natural tx.r
  s : Natural tx.s

structure BlobTx.Sound (tx : BlobTx) : Prop where
  chainID : ∃ z, tx.chainID = some z
  gasTipCap : ∃ z, tx.gasTipCap = some z
  gasFeeCap : ∃ z, tx.gasFeeCap = some z
  value : ∃ z, tx.value = some z
  blobFeeCap : ∃ z, tx.blobFeeCap = some z
  v : ∃ z, tx.v = some z
  r : ∃ z, tx.r = some z
  s : ∃ z, tx.s = some z

structure SubmitTx.Sound (tx : SubmitTx) : Prop where
  value : Natural tx.value

theorem number_transfers (old : Option Int) {i : Option Int} (h : Natural i) :
    bigIntPtr.Transfers old i i (numberItem i) := by
  obtain ⟨n, rfl⟩ := h
  exact bigIntPtr_transfers old (Int.natCast_nonneg n)

theorem UInt256.transfers (old : Option UInt256) {z : Option UInt256} (h : ∃ v, z = some v) :
    u256IntPtr.Transfers old z z (UInt256.item z) := by
  obtain ⟨v, rfl⟩ := h
  exact u256IntPtr_transfers old v

theorem Address.transfers (old a : Option Address) :
    Address.nilInfo.Transfers old a a (Address.item a) := by
  cases a
  case none => exact nilPtr_transfers_none _ old
  case some a =>
    have ha : a.val ≠ [] := ne_nil_of_length_pos (by rw [a.property]; decide)
    exact nilPtr_transfers _ old ha (fun old => byteArray_transfers _ old a)
      fun old => byteArray_peeks _ old

theorem byteArrays_transfers (typ : String) {n : Nat} (old l : List (ByteArr n)) :
    (slice (byteArray typ n)).Transfers old l l (ByteArr.items l) :=
  slice_transfers old l (fun a _ old => byteArray_transfers typ old a) (byteArray_stopsAtEnd typ)

theorem AccessTuple.transfers (old t : AccessTuple) : info.Transfers old t t t.item :=
  struct_transfers _ _ <|
    .cons (.of (byteArray_transfers _ _ _)) <|
    .cons (.of (byteArrays_transfers _ _ _)) <|
    .nil

theorem AccessList.transfers (old l : AccessList) : info.Transfers old l l (AccessList.item l) :=
  namedSlice_transfers _ old l (fun t _ old => AccessTuple.transfers old t)
    (struct_stopsAtEnd _ _ _)

theorem LegacyTx.transfers (old : LegacyTx) {tx : LegacyTx} (h : tx.Sound) :
    info.Transfers old tx tx tx.item :=
  struct_transfers _ _ <|
    .cons (.of (uint64_transfers _ _)) <|
    .cons (.of (number_transfers _ h.gasPrice)) <|
    .cons (.of (uint64_transfers _ _)) <|
    .cons (.of (Address.transfers _ _)) <|
    .cons (.of (number_transfers _ h.value)) <|
    .cons (.of (ofBytes_transfers _ _ _)) <|
    .cons (.of (number_transfers _ h.v)) <|
    .cons (.of (number_transfers _ h.r)) <|
    .cons (.of (number_transfers _ h.s)) <|
    .nil

theorem AccessListTx.transfers (old : AccessListTx) {tx : AccessListTx} (h : tx.Sound) :
    info.Transfers old tx tx tx.item :=
  struct_transfers _ _ <|
    .cons (.of (number_transfers _ h.chainID)) <|
    .cons (.of (uint64_transfers _ _)) <|
    .cons (.of (number_transfers _ h.gasPrice)) <|
    .cons (.of (uint64_transfers _ _)) <|
    .cons (.of (Address.transfers _ _)) <|
    .cons (.of (number_transfers _ h.value)) <|
    .cons (.of (ofBytes_transfers _ _ _)) <|
    .cons (.of (AccessList.transfers _ _)) <|
    .cons (.of (number_transfers _ h.v)) <|
    .cons (.of (number_transfers _ h.r)) <|
    .cons (.of (number_transfers _ h.s)) <|
    .nil

theorem DynamicFeeTx.transfers (old : DynamicFeeTx) {tx : DynamicFeeTx} (h : tx.Sound) :
    info.Transfers old tx tx tx.item :=
  struct_transfers _ _ <|
    .cons (.of (number_transfers _ h.chainID)) <|
    .cons (.of (uint64_transfers _ _)) <|
    .cons (.of (number_transfers _ h.gasTipCap)) <|
    .cons (.of (number_transfers _ h.gasFeeCap)) <|
    .cons (.of (uint64_transfers _ _)) <|
    .cons (.of (Address.transfers _ _)) <|
    .cons (.of (number_transfers _ h.value)) <|
    .cons (.of (ofBytes_transfers _ _ _)) <|
    .cons (.of (AccessList.transfers _ _)) <|
    .cons (.of (number_transfers _ h.v)) <|
    .cons (.of (number_transfers _ h.r)) <|
    .cons (.of (number_transfers _ h.s)) <|
    .nil

theorem BlobTx.transfers (old : BlobTx) {tx : BlobTx} (h : tx.Sound) :
    info.Transfers old tx { tx with sidecar := old.sidecar } tx.item :=
  struct_transfers _ _ <|
    .cons (.of (UInt256.transfers _ h.chainID)) <|
    .cons (.of (uint64_transfers _ _)) <|
    .cons (.of (UInt256.transfers _ h.gasTipCap)) <|
    .cons (.of (UInt256.transfers _ h.gasFeeCap)) <|
    .cons (.of (uint64_transfers _ _)) <|
    .cons (.of (byteArray_transfers _ _ _)) <|
    .cons (.of (UInt256.transfers _ h.value)) <|
    .cons (.of (ofBytes_transfers _ _ _)) <|
    .cons (.of (AccessList.transfers _ _)) <|
    .cons (.of (UInt256.transfers _ h.blobFeeCap)) <|
    .cons (.of (byteArrays_transfers _ _ _)) <|
    .cons (.of (UInt256.transfers _ h.v)) <|
    .cons (.of (UInt256.transfers _ h.r)) <|
    .cons (.of (UInt256.transfers _ h.s)) <|
    .nil

theorem BlobTxWithBlobs.transfers (old : BlobTxWithBlobs) {tx : BlobTx} (h : tx.Sound)
    (sidecar : BlobTxSidecar) :
    info.Transfers old ⟨tx, sidecar.blobs, sidecar.commitments, sidecar.proofs⟩
      ⟨{ tx with sidecar := old.blobTx.sidecar }, sidecar.blobs, sidecar.commitments, sidecar.proofs⟩
      (.list (tx.item :: sidecar.items)) :=
  struct_transfers _ _ <|
    .cons (.of (BlobTx.transfers _ h)) <|
    .cons (.of (byteArrays_transfers _ _ _)) <|
    .cons (.of (byteArrays_transfers _ _ _)) <|
    .cons (.of (byteArrays_transfers _ _ _)) <|
    .nil

theorem SubmitTx.transfers (old : SubmitTx) {tx : SubmitTx} (h : tx.Sound) :
    info.Transfers old tx tx tx.item :=
  struct_transfers _ _ <|
    .cons (.of (byteArray_transfers _ _ _)) <|
    .cons (.of (byteArray_transfers _ _ _)) <|
    .cons (.of (Address.transfers _ _)) <|
    .cons (.of (number_transfers _ h.value)) <|
    .cons (.of (uint64_transfers _ _)) <|
    .cons (.of (bool_transfers _ _)) <|
    .cons (.of (ofBytes_transfers _ _ _)) <|
    .nil

theorem Address.strict : Address.nilInfo.Strict Address.item fun _ => True :=
  nilPtr_strict (byteArray_strict _ 20) fun old => byteArray_peeks _ old

theorem byteArrays_strict (typ : String) (n : Nat) :
    (slice (byteArray typ n)).Strict ByteArr.items fun _ => True :=
  slice_strict (byteArray_strict typ n) fun old => byteArray_eolInPlace typ old

theorem AccessTuple.strict : info.Strict item fun _ => True := by
  intro old
  refine (struct_accepts <|
    .cons (.of (byteArray_strict _ _)) <|
    .cons (.of (byteArrays_strict _ _)) <|
    .nil).mono ?_
  rintro a b ⟨items, h, rfl⟩
  iterate 2 obtain ⟨_, _, _, h, _, rfl, rfl⟩ := h
  obtain ⟨rfl, rfl⟩ := h
  exact ⟨trivial, rfl⟩

theorem AccessList.strict : info.Strict AccessList.item fun _ => True :=
  namedSlice_strict _ AccessTuple.strict fun old => struct_eolInPlace _ _ old

theorem LegacyTx.strict : info.Strict item Sound := by
  intro old
  refine (struct_accepts <|
    .cons (.of uint64_strict) <|
    .cons (.of bigIntPtr_strict) <|
    .cons (.of uint64_strict) <|
    .cons (.of Address.strict) <|
    .cons (.of bigIntPtr_strict) <|
    .cons (.of (ofBytes_strict _)) <|
    .cons (.of bigIntPtr_strict) <|
    .cons (.of bigIntPtr_strict) <|
    .cons (.of bigIntPtr_strict) <|
    .nil).mono ?_
  rintro a b ⟨items, h, rfl⟩
  iterate 9 obtain ⟨_, _, _, h, _, rfl, rfl⟩ := h
  obtain ⟨rfl, rfl⟩ := h
  exact ⟨⟨‹_›, ‹_›, ‹_›, ‹_›, ‹_›⟩, rfl⟩

theorem AccessListTx.strict : info.Strict item Sound := by
  intro old
  refine (struct_accepts <|
    .cons (.of bigIntPtr_strict) <|
    .cons (.of uint64_strict) <|
    .cons (.of bigIntPtr_strict) <|
    .cons (.of uint64_strict) <|
    .cons (.of Address.strict) <|
    .cons (.of bigIntPtr_strict) <|
    .cons (.of (ofBytes_strict _)) <|
    .cons (.of AccessList.strict) <|
    .cons (.of bigIntPtr_strict) <|
    .cons (.of bigIntPtr_strict) <|
    .cons (.of bigIntPtr_strict) <|
    .nil).mono ?_
  rintro a b ⟨items, h, rfl⟩
  iterate 11 obtain ⟨_, _, _, h, _, rfl, rfl⟩ := h
  obtain ⟨rfl, rfl⟩ := h
  exact ⟨⟨‹_›, ‹_›, ‹_›, ‹_›, ‹_›, ‹_›⟩, rfl⟩

theorem DynamicFeeTx.strict : info.Strict item Sound := by
  intro old
  refine (struct_accepts <|
    .cons (.of bigIntPtr_strict) <|
    .cons (.of uint64_strict) <|
    .cons (.of bigIntPtr_strict) <|
    .cons (.of bigIntPtr_strict) <|
    .cons (.of uint64_strict) <|
    .cons (.of Address.strict) <|
    .cons (.of bigIntPtr_strict) <|
    .cons (.of (ofBytes_strict _)) <|
    .cons (.of AccessList.strict) <|
    .cons (.of bigIntPtr_strict) <|
    .cons (.of bigIntPtr_strict) <|
    .cons (.of bigIntPtr_strict) <|
    .nil).mono ?_
  rintro a b ⟨items, h, rfl⟩
  iterate 12 obtain ⟨_, _, _, h, _, rfl, rfl⟩ := h
  obtain ⟨rfl, rfl⟩ := h
  exact ⟨⟨‹_›, ‹_›, ‹_›, ‹_›, ‹_›, ‹_›, ‹_›⟩, rfl⟩

theorem BlobTx.accepts (old : BlobTx) : Accepts (info.decoder old) fun a b =>
    (a.Sound ∧ a.sidecar = old.sidecar) ∧ b = a.item.encode := by
  refine (struct_accepts <|
    .cons (.of u256IntPtr_strict) <|
    .cons (.of uint64_strict) <|
    .cons (.of u256IntPtr_strict) <|
    .cons (.of u256IntPtr_strict) <|
    .cons (.of uint64_strict) <|
    .cons (.of (byteArray_strict _ _)) <|
    .cons (.of u256IntPtr_strict) <|
    .cons (.of (ofBytes_strict _)) <|
    .cons (.of AccessList.strict) <|
    .cons (.of u256IntPtr_strict) <|
    .cons (.of (byteArrays_strict _ _)) <|
    .cons (.of u256IntPtr_strict) <|
    .cons (.of u256IntPtr_strict) <|
    .cons (.of u256IntPtr_strict) <|
    .nil).mono ?_
  rintro a b ⟨items, h, rfl⟩
  iterate 14 obtain ⟨_, _, _, h, _, rfl, rfl⟩ := h
  obtain ⟨rfl, rfl⟩ := h
  exact ⟨⟨⟨‹_›, ‹_›, ‹_›, ‹_›, ‹_›, ‹_›, ‹_›, ‹_›⟩, rfl⟩, rfl⟩

theorem BlobTx.strict : info.Strict item Sound :=
  fun old => (accepts old).mono fun _ _ h => ⟨h.left.left, h.right⟩

def BlobTxWithBlobs.item (tx : BlobTxWithBlobs) : Item :=
  .list (tx.blobTx.item :: BlobTxSidecar.items ⟨tx.blobs, tx.commitments, tx.proofs⟩)

theorem BlobTxWithBlobs.strict : info.Strict item fun tx => tx.blobTx.Sound := by
  intro old
  refine (struct_accepts <|
    .cons (.of BlobTx.strict) <|
    .cons (.of (byteArrays_strict _ _)) <|
    .cons (.of (byteArrays_strict _ _)) <|
    .cons (.of (byteArrays_strict _ _)) <|
    .nil).mono ?_
  rintro a b ⟨items, h, rfl⟩
  iterate 4 obtain ⟨_, _, _, h, _, rfl, rfl⟩ := h
  obtain ⟨rfl, rfl⟩ := h
  exact ⟨‹_›, rfl⟩

theorem SubmitTx.strict : info.Strict item Sound := by
  intro old
  refine (struct_accepts <|
    .cons (.of (byteArray_strict _ _)) <|
    .cons (.of (byteArray_strict _ _)) <|
    .cons (.of Address.strict) <|
    .cons (.of bigIntPtr_strict) <|
    .cons (.of uint64_strict) <|
    .cons (.of bool_strict) <|
    .cons (.of (ofBytes_strict _)) <|
    .nil).mono ?_
  rintro a b ⟨items, h, rfl⟩
  iterate 7 obtain ⟨_, _, _, h, _, rfl, rfl⟩ := h
  obtain ⟨rfl, rfl⟩ := h
  exact ⟨⟨‹_›⟩, rfl⟩

namespace BlobTx

variable {tx : BlobTx} {b : Bytes} {items : List Item}

def payload (tx : BlobTx) : Item :=
  match tx.sidecar with
  | none         => tx.item
  | some sidecar => .list (tx.item :: sidecar.items)

theorem payload_of_none (h : tx.sidecar = none) : tx.payload = tx.item := by
  rw [payload, h]

theorem payload_of_some {sidecar : BlobTxSidecar} (h : tx.sidecar = some sidecar) :
    tx.payload = .list (tx.item :: sidecar.items) := by
  rw [payload, h]

theorem decode_str (h : (Item.list (.str b :: items)).encode.length < 2 ^ 64) :
    decode (Item.list (.str b :: items)).encode =
      decodeBytes info (Item.list (.str b :: items)).encode zero := by
  have hc := Nat.lt_of_le_of_lt Item.encodeAll_length_le h
  have hb : b.length < 2 ^ 64 := by
    have := @Item.length_le_encodeStr b
    rw [Item.encodeAll, length_append, Item.encode] at hc
    omega
  obtain ⟨k, hs, hk⟩ := Raw.split_encodeStr hb (Item.encodeAll items)
  have hl : Raw.splitList (Item.list (.str b :: items)).encode = .ok (_, []) :=
    Raw.splitList_list hc
  unfold decode
  rw [hl]
  simp only [Item.encodeAll, Item.encode, hs, bind, Except.bind, ne_eq, hk, not_false_eq_true,
    if_true]

theorem decode_list {items' : List Item} {inner : BlobTxWithBlobs}
    (h : (Item.list (.list items' :: items)).encode.length < 2 ^ 64)
    (hd : decodeBytes BlobTxWithBlobs.info (Item.list (.list items' :: items)).encode .zero =
      .ok inner) :
    decode (Item.list (.list items' :: items)).encode =
      .ok { inner.blobTx with sidecar := some ⟨inner.blobs, inner.commitments, inner.proofs⟩ } := by
  have hc := Nat.lt_of_le_of_lt Item.encodeAll_length_le h
  have hb : (Item.encodeAll items').length < 2 ^ 64 := by
    have := @Item.encodeAll_length_le items'
    rw [Item.encodeAll, length_append] at hc
    omega
  have hs := @Raw.split_list _ (Item.encodeAll items) hb
  have hl : Raw.splitList (Item.list (.list items' :: items)).encode = .ok (_, []) :=
    Raw.splitList_list hc
  unfold decode
  rw [hl, hd]
  simp only [Item.encodeAll, Item.encode, append_assoc, hs, bind, Except.bind, ne_eq,
    not_true, if_false]
  rfl

theorem encode_payload (h : tx.Sound) (hb : tx.payload.encode.length < 2 ^ 64) :
    tx.encode = .ok tx.payload.encode := by
  unfold encode
  split
  case h_1 hs =>
    rw [payload_of_none hs] at hb ⊢
    exact (transfers zero h).writes.encodeToBytes hb
  case h_2 sidecar hs =>
    rw [payload_of_some hs] at hb ⊢
    exact (BlobTxWithBlobs.transfers .zero h sidecar).writes.encodeToBytes hb

theorem decode_payload (h : tx.Sound) (hb : tx.payload.encode.length < 2 ^ 64) :
    decode tx.payload.encode = .ok tx := by
  cases hs : tx.sidecar
  case none =>
    rw [payload_of_none hs] at hb ⊢
    have ht : { tx with sidecar := none } = tx := by rw [← hs]
    have hd := (decodeBytes_encodeToBytes (transfers zero h) hb).right
    exact (decode_str hb).trans (hd.trans (congrArg _ ht))
  case some sidecar =>
    rw [payload_of_some hs] at hb ⊢
    have ht : { tx with sidecar := some sidecar } = tx := by rw [← hs]
    have hd := (decodeBytes_encodeToBytes (BlobTxWithBlobs.transfers .zero h sidecar) hb).right
    exact (decode_list hb hd).trans (congrArg _ ht)

-- Only the two formats are accepted.
theorem of_decode (hb : b.length < 2 ^ 63) (h : decode b = .ok tx) :
    tx.Sound ∧ b = tx.payload.encode := by
  unfold decode at h
  cases hl : Raw.splitList b
  case error => simp [hl, bind, Except.bind] at h
  case ok l =>
    simp only [hl, bind, Except.bind] at h
    cases hs : Raw.split l.fst
    case error => simp [hs] at h
    case ok k =>
      simp only [hs] at h
      split at h
      case isTrue =>
        obtain ⟨⟨ht, hi⟩, he⟩ := (accepts zero).decodeBytes hb h
        exact ⟨ht, payload_of_none hi ▸ he⟩
      case isFalse =>
        cases hd : decodeBytes BlobTxWithBlobs.info b .zero
        case error => simp [hd] at h
        case ok inner =>
          simp only [hd] at h
          cases h
          obtain ⟨ht, he⟩ := (BlobTxWithBlobs.strict .zero).decodeBytes hb hd
          exact ⟨{ ht with }, he⟩

end BlobTx

namespace TypedTx

variable {tx : TypedTx} {b : Bytes} {type : UInt8}

def Sound : TypedTx → Prop
  | accessList tx => tx.Sound
  | dynamicFee tx => tx.Sound
  | blob tx       => tx.Sound
  | submit tx     => tx.Sound

def item : TypedTx → Item
  | accessList tx => tx.item
  | dynamicFee tx => tx.item
  | blob tx       => tx.payload
  | submit tx     => tx.item

theorem encode_eq (h : tx.Sound) (hb : tx.item.encode.length < 2 ^ 64) :
    tx.encode = .ok tx.item.encode := by
  cases tx
  case accessList => exact (AccessListTx.transfers .zero h).writes.encodeToBytes hb
  case dynamicFee => exact (DynamicFeeTx.transfers .zero h).writes.encodeToBytes hb
  case blob       => exact BlobTx.encode_payload h hb
  case submit     => exact (SubmitTx.transfers .zero h).writes.encodeToBytes hb

theorem decode_item (h : tx.Sound) (hb : tx.item.encode.length < 2 ^ 64) :
    decode tx.txType tx.item.encode = some (.ok tx) := by
  cases tx
  case accessList tx =>
    have hd := (decodeBytes_encodeToBytes (AccessListTx.transfers .zero h) hb).right
    exact congrArg (fun r => some (r.map accessList)) hd
  case dynamicFee tx =>
    have hd := (decodeBytes_encodeToBytes (DynamicFeeTx.transfers .zero h) hb).right
    exact congrArg (fun r => some (r.map dynamicFee)) hd
  case blob tx =>
    exact congrArg (fun r => some (r.map blob)) (BlobTx.decode_payload h hb)
  case submit tx =>
    have hd := (decodeBytes_encodeToBytes (SubmitTx.transfers .zero h) hb).right
    exact congrArg (fun r => some (r.map submit)) hd

theorem of_decode (hb : b.length < 2 ^ 63) (h : decode type b = some (.ok tx)) :
    tx.Sound ∧ tx.txType = type ∧ b = tx.item.encode := by
  unfold decode at h
  split at h
  case isTrue ht =>
    obtain ⟨tx, hd, rfl⟩ := Loop.map_eq_ok (Option.some.inj h)
    obtain ⟨hs, he⟩ := (AccessListTx.strict .zero).decodeBytes hb hd
    exact ⟨hs, ht.symm, he⟩
  case isFalse =>
    split at h
    case isTrue ht =>
      obtain ⟨tx, hd, rfl⟩ := Loop.map_eq_ok (Option.some.inj h)
      obtain ⟨hs, he⟩ := (DynamicFeeTx.strict .zero).decodeBytes hb hd
      exact ⟨hs, ht.symm, he⟩
    case isFalse =>
      split at h
      case isTrue ht =>
        obtain ⟨tx, hd, rfl⟩ := Loop.map_eq_ok (Option.some.inj h)
        obtain ⟨hs, he⟩ := BlobTx.of_decode hb hd
        exact ⟨hs, ht.symm, he⟩
      case isFalse =>
        split at h
        case isTrue ht =>
          obtain ⟨tx, hd, rfl⟩ := Loop.map_eq_ok (Option.some.inj h)
          obtain ⟨hs, he⟩ := (SubmitTx.strict .zero).decodeBytes hb hd
          exact ⟨hs, ht.symm, he⟩
        case isFalse => cases h

theorem txType_le (tx : TypedTx) : ¬tx.txType > 0x7F := by
  cases tx <;> exact of_decide_eq_true rfl

end TypedTx

namespace TxData

def Sound : TxData → Prop
  | legacy tx => tx.Sound
  | typed tx  => tx.Sound

def binary : TxData → Bytes
  | legacy tx => tx.item.encode
  | typed tx  => tx.txType :: tx.item.encode

-- The value that represents the transaction as a part of other values.
def envelope : TxData → Item
  | legacy tx => tx.item
  | typed tx  => .str (tx.txType :: tx.item.encode)

theorem binary_length_le (d : TxData) : d.binary.length ≤ d.envelope.encode.length := by
  cases d
  case legacy => exact Nat.le_refl _
  case typed  => exact Item.length_le_encodeStr

end TxData

namespace Transaction

variable {tx tx' : Transaction} {d : TxData} {b : Bytes}

theorem encodeTyped_eq {tx : TypedTx} (h : tx.Sound) (hb : tx.item.encode.length < 2 ^ 64) :
    encodeTyped tx = .ok (tx.txType :: tx.item.encode) := by
  simp only [encodeTyped, TypedTx.encode_eq h hb, bind, Except.bind]
  rfl

theorem marshalBinary_eq (h : tx.inner.Sound) (hb : tx.inner.binary.length < 2 ^ 64) :
    tx.marshalBinary = .ok tx.inner.binary := by
  unfold marshalBinary
  split
  case h_1 inner hi =>
    rw [hi] at h hb ⊢
    exact (LegacyTx.transfers .zero h).writes.encodeToBytes hb
  case h_2 inner hi =>
    rw [hi] at h hb ⊢
    exact encodeTyped_eq h (Nat.lt_of_succ_lt hb)

theorem encodeRLP_eq (h : tx.inner.Sound) (hb : tx.inner.envelope.encode.length < 2 ^ 64) :
    tx.encodeRLP = .ok tx.inner.envelope.encode := by
  have hl := Nat.lt_of_le_of_lt tx.inner.binary_length_le hb
  unfold encodeRLP
  split
  case h_1 inner hi =>
    rw [hi] at h hb ⊢
    exact (LegacyTx.transfers .zero h).writes.encodeToBytes hb
  case h_2 inner hi =>
    rw [hi] at h hb hl ⊢
    simp only [encodeTyped_eq h (Nat.lt_of_succ_lt hl), bind, Except.bind]
    exact (ofBytes_transfers _ [] _).writes.encodeToBytes hb

theorem decodeTyped_eq {tx : TypedTx} (h : tx.Sound) (hb : tx.item.encode.length < 2 ^ 64) :
    decodeTyped (tx.txType :: tx.item.encode) = .ok tx := by
  have hd := TypedTx.decode_item h hb
  cases he : tx.item.encode
  case nil =>
    have := Item.encode_length_pos tx.item
    simp [he] at this
  case cons x b =>
    rw [he] at hd
    simp only [decodeTyped, hd]

theorem of_decodeTyped {tx : TypedTx} (hb : b.length < 2 ^ 63) (h : decodeTyped b = .ok tx) :
    tx.Sound ∧ b = tx.txType :: tx.item.encode := by
  unfold decodeTyped at h
  split at h
  case h_1 => cases h
  case h_2 => cases h
  case h_3 =>
    split at h
    case h_1 => cases h
    case h_2 => cases h
    case h_3 inner hd =>
      cases h
      obtain ⟨hs, ht, he⟩ := TypedTx.of_decode (Nat.lt_of_succ_lt hb) hd
      exact ⟨hs, by rw [ht, ← he]⟩

theorem unmarshalBinary_binary (h : d.Sound) (hb : d.binary.length < 2 ^ 64) :
    unmarshalBinary d.binary = .ok (setDecoded d d.binary.length) := by
  cases d
  case legacy tx =>
    have hd := (decodeBytes_encodeToBytes (LegacyTx.transfers .zero h) hb).right
    have hh : tx.item.encode.head?.any (· > 0x7F) :=
      Raw.head_list (Nat.lt_of_le_of_lt Item.encodeAll_length_le hb)
    simp only [unmarshalBinary, TxData.binary, hh, if_true, hd]
  case typed tx =>
    have hh : ¬(some tx.txType).any (· > 0x7F) := by simpa using tx.txType_le
    have hd := decodeTyped_eq h (Nat.lt_of_succ_lt hb)
    unfold unmarshalBinary TxData.binary
    rw [List.head?_cons, if_neg hh]
    simp only [hd]

theorem of_unmarshalBinary (hb : b.length < 2 ^ 63) (h : unmarshalBinary b = .ok tx) :
    tx.inner.Sound ∧ b = tx.inner.binary ∧ tx = setDecoded tx.inner b.length := by
  unfold unmarshalBinary at h
  split at h
  case isTrue =>
    split at h
    case h_1 => cases h
    case h_2 inner hd =>
      cases h
      obtain ⟨hs, he⟩ := (LegacyTx.strict .zero).decodeBytes hb hd
      exact ⟨hs, he, rfl⟩
  case isFalse =>
    split at h
    case h_1 => cases h
    case h_2 inner hd =>
      cases h
      obtain ⟨hs, he⟩ := of_decodeTyped hb hd
      exact ⟨hs, he, rfl⟩

theorem decodeRLP_envelope {s : Stream} (h : d.Sound) (hb : d.envelope.encode.length < 2 ^ 63)
    (hk : s.kind = none) (hp : d.envelope.encode <+: s.r)
    (hr : s.Room d.envelope.encode.length) :
    ∃ s', decodeRLP s = .ok (setDecoded d d.binary.length) s' ∧ s'.kind = none ∧
      s.Moved d.envelope.encode.length s' := by
  have hb' : d.envelope.encode.length < 2 ^ 64 := Nat.lt_trans hb (by decide)
  cases d
  case legacy tx =>
    have hc := Nat.lt_of_le_of_lt Item.encodeAll_length_le hb'
    obtain ⟨s₁, hs₁⟩ := Stream.getKind_list hc hk hp hr
    obtain ⟨s', hs', hk', hm⟩ := (LegacyTx.transfers .zero h).reads hb' s hk hp hr
    have hs : Stream.decode LegacyTx.info .zero s₁ = .ok tx s' :=
      adaptExcept_ok _ <| (struct_peeks _ _ _ _ s _ _ s₁ hs₁).trans hs'
    refine ⟨s', ?_, hk', hm⟩
    unfold decodeRLP
    rw [bind_ok (adaptExcept_ok _ hs₁)]
    dsimp only
    rw [bind_ok (adaptExcept_ok _ hs), pure_apply, Raw.listSize_eq hc, ← length_append]
    rfl
  case typed tx =>
    have hl : (tx.txType :: tx.item.encode).length ≤ (TxData.typed tx).envelope.encode.length :=
      Item.length_le_encodeStr
    have hp' : 0 < tx.item.encode.length := Item.encode_length_pos _
    have hz : ¬(tx.txType :: tx.item.encode).length ≥ 2 ^ 63 := by omega
    have hc : (tx.txType :: tx.item.encode).length < 2 ^ 64 := by omega
    obtain ⟨x, _, he, -⟩ | ⟨-, s₁, hs₁, -⟩ := Stream.getKind_str hc hk hp hr
    case inl =>
      rw [(List.cons.inj he).right] at hp'
      exact absurd hp' (Nat.lt_irrefl 0)
    case inr =>
      obtain ⟨s', hs', hk', hm⟩ := Stream.readBytes_consumes hc s hk hp hr
      have hs := (Peeks.readBytes _ s _ _ s₁ hs₁).trans hs'
      have hd := decodeTyped_eq h (Nat.lt_of_succ_lt hc)
      refine ⟨s', ?_, hk', hm⟩
      unfold decodeRLP
      rw [bind_ok (adaptExcept_ok _ hs₁)]
      dsimp only
      rw [if_neg hz, bind_ok (adaptExcept_ok _ hs)]
      simp only [hd]
      rfl

-- A transaction is decoded from its encoding, and it has no other encoding.
theorem codec_bijective :
    (∀ tx : Transaction, tx.inner.Sound → tx.inner.envelope.encode.length < 2 ^ 63 →
      (∃ b tx', tx.marshalBinary = .ok b ∧ unmarshalBinary b = .ok tx' ∧ tx'.inner = tx.inner) ∧
      (∃ b tx' s, tx.encodeRLP = .ok b ∧ decodeRLP (.reset b b.length) = .ok tx' s ∧
        tx'.inner = tx.inner ∧ s.r = [])) ∧
    (∀ b tx, b.length < 2 ^ 63 → unmarshalBinary b = .ok tx → tx.marshalBinary = .ok b) ∧
    (∀ b b' tx tx', b.length < 2 ^ 63 → b'.length < 2 ^ 63 → unmarshalBinary b = .ok tx →
      unmarshalBinary b' = .ok tx' → tx.inner = tx'.inner → b = b') := by
  refine ⟨?_, ?_, ?_⟩
  case refine_1 =>
    intro tx h hb
    have hb' : tx.inner.envelope.encode.length < 2 ^ 64 := Nat.lt_trans hb (by decide)
    have hl := Nat.lt_of_le_of_lt tx.inner.binary_length_le hb'
    have hr : (Stream.reset tx.inner.envelope.encode tx.inner.envelope.encode.length).Room
        tx.inner.envelope.encode.length :=
      ⟨by simp [Stream.reset], fun _ => Nat.le_refl _⟩
    obtain ⟨s', hs', -, hm⟩ := decodeRLP_envelope h hb rfl (prefix_refl _) hr
    refine ⟨⟨_, _, marshalBinary_eq h hl, unmarshalBinary_binary h hl, rfl⟩,
      ⟨_, _, s', encodeRLP_eq h hb', hs', rfl, ?_⟩⟩
    simp [hm.r, Stream.reset]
  case refine_2 =>
    intro b tx hb h
    obtain ⟨hs, he, -⟩ := of_unmarshalBinary hb h
    rw [he] at hb ⊢
    exact marshalBinary_eq hs (Nat.lt_trans hb (by decide))
  case refine_3 =>
    intro b b' tx tx' hb hb' h h' hi
    obtain ⟨-, he, -⟩ := of_unmarshalBinary hb h
    obtain ⟨-, he', -⟩ := of_unmarshalBinary hb' h'
    rw [he, he', hi]

def carrier : BlobTx where
  chainID := some 1
  nonce := 7
  gasTipCap := some 2
  gasFeeCap := some 3
  gas := 21000
  toAddr := .fill 4
  value := some 5
  data := [1, 2]
  accessList := [⟨.fill 6, [.fill 7]⟩]
  blobFeeCap := some 8
  blobHashes := [.fill 9]
  sidecar := some ⟨[.fill 10], [.fill 11], [.fill 12]⟩
  v := some 1
  r := some 13
  s := some 14

theorem carrier_sound : carrier.Sound :=
  ⟨⟨1, rfl⟩, ⟨2, rfl⟩, ⟨3, rfl⟩, ⟨5, rfl⟩, ⟨8, rfl⟩, ⟨1, rfl⟩, ⟨13, rfl⟩, ⟨14, rfl⟩⟩

-- The blob has 131072 bytes.
theorem carrier_length : carrier.payload.encode.length < 2 ^ 22 := by
  let blob : Blob := .fill 10
  let rest : List Item := [ByteArr.items [(.fill 11 : Commitment)], ByteArr.items [(.fill 12 : Proof)]]
  have hb := @Item.encodeStr_length_le blob.val
  have hl := @Item.encode_list_length_le [.str blob.val]
  have hp := @Item.encode_list_length_le (carrier.item :: .list [.str blob.val] :: rest)
  have hi : carrier.item.encode.length < 1000 := by decide +kernel
  have hr : (Item.encodeAll rest).length < 1000 := by decide +kernel
  rw [blob.property] at hb
  simp only [Item.encodeAll, length_append, append_nil] at hl hp
  rw [Item.encode] at hl
  have he : carrier.payload = .list (carrier.item :: .list [.str blob.val] :: rest) := rfl
  rw [he]
  omega

theorem carrier_envelope_length :
    (TxData.typed (.blob carrier)).envelope.encode.length < 2 ^ 63 := by
  have hl := carrier_length
  have hb := @Item.encodeStr_length_le (0x03 :: carrier.payload.encode)
  rw [length_cons] at hb
  exact Nat.lt_of_le_of_lt hb (by omega)

theorem codec_bijective_carrier :
    (∃ b tx', marshalBinary ⟨.typed (.blob carrier), none⟩ = .ok b ∧ unmarshalBinary b = .ok tx' ∧
      tx'.inner = .typed (.blob carrier) ∧ tx'.marshalBinary = .ok b) ∧
    ∃ b tx' s, encodeRLP ⟨.typed (.blob carrier), none⟩ = .ok b ∧
      decodeRLP (.reset b b.length) = .ok tx' s ∧ tx'.inner = .typed (.blob carrier) ∧ s.r = [] := by
  obtain ⟨⟨b, tx', hm, hu, hi⟩, hr⟩ := codec_bijective.left ⟨.typed (.blob carrier), none⟩
    carrier_sound carrier_envelope_length
  have hl := Nat.lt_of_le_of_lt (TxData.binary_length_le _) carrier_envelope_length
  cases hm.symm.trans (marshalBinary_eq carrier_sound (Nat.lt_trans hl (by decide)))
  exact ⟨⟨_, tx', hm, hu, hi, codec_bijective.right.left _ tx' hl hu⟩, hr⟩

end Transaction
