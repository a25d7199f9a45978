import DomiconExec.Objects.Receipt
import DomiconExec.Objects.Theorems.Transaction

namespace Types

open List Rlp Rlp.TypeInfo

def Log.item (log : Log) : Item :=
  .list [.str log.address.val, ByteArr.items log.topics, .str log.data]

theorem Log.encodeRLP_puts (log : Log) : Puts (fun w => .ok (log.encodeRLP w)) log.item.encode := by
  have ht := Puts.close <| Puts.foldl (l := log.topics) fun t _ => Puts.writeBytes t.val
  have hc := (Puts.writeBytes log.address.val).comp <| ht.comp <| (Puts.writeBytes log.data).comp .nil
  exact @Puts.close [.str log.address.val, ByteArr.items log.topics, .str log.data] _ hc

theorem Log.transfers (old log : Log) : info.Transfers old log log log.item where
  writes := log.encodeRLP_puts
  reads :=
    have h : FieldsTransfer log fields old log
        [.str log.address.val, ByteArr.items log.topics, .str log.data] :=
      .cons (.of (byteArray_transfers _ _ _)) <|
      .cons (.of (byteArrays_transfers _ _ _)) <|
      .cons (.of (ofBytes_transfers _ _ _)) <|
      .nil
    (struct_transfers "types.Log" zero h).reads

theorem Log.stopsAtEnd (old : Log) : StopsAtEnd (info.decoder old) :=
  struct_stopsAtEnd "types.Log" zero fields old

def ReceiptRLP.item (data : ReceiptRLP) : Item :=
  .list [
    .str data.postStateOrStatus,
    data.cumulativeGasUsed.item,
    .str data.bloom.val,
    .list (data.logs.map Log.item)
  ]

theorem ReceiptRLP.transfers (old data : ReceiptRLP) : info.Transfers old data data data.item :=
  struct_transfers _ _ <|
    .cons (.of (ofBytes_transfers _ _ _)) <|
    .cons (.of (uint64_transfers _ _)) <|
    .cons (.of (byteArray_transfers _ _ _)) <|
    .cons (.of (slice_transfers _ _ (fun log _ old => Log.transfers old log) Log.stopsAtEnd)) <|
    .nil

namespace Receipt

variable {r r' : Receipt}

-- A receipt of a type that is known, with an outcome that can be encoded.
structure Regular (r : Receipt) : Prop where
  type : r.type = 0x00 ∨ r.type = 0x01 ∨ r.type = 0x02 ∨ r.type = 0x03 ∨ r.type = 0x7D
  status : r.postState = [] ∧ (r.status = 0 ∨ r.status = 1) ∨ r.postState.length = 32
  size : r.consensusData.item.encode.length < 2 ^ 63

-- The consensus fields are the same. The status is not part of them if there is a state.
structure Agrees (r r' : Receipt) : Prop where
  type : r'.type = r.type
  postState : r'.postState = r.postState
  status : r.postState = [] → r'.status = r.status
  cumulativeGasUsed : r'.cumulativeGasUsed = r.cumulativeGasUsed
  bloom : r'.bloom = r.bloom
  logs : r'.logs = r.logs

theorem Agrees.of_common {q : Receipt} (h : r.Agrees q) (h' : r'.Agrees q) : r.Agrees r' where
  type := h'.type.symm.trans h.type
  postState := h'.postState.symm.trans h.postState
  status hp := (h'.status (h'.postState.symm.trans (h.postState.trans hp))).symm.trans (h.status hp)
  cumulativeGasUsed := h'.cumulativeGasUsed.symm.trans h.cumulativeGasUsed
  bloom := h'.bloom.symm.trans h.bloom
  logs := h'.logs.symm.trans h.logs

theorem setStatus_statusEncoding
    (h : r.postState = [] ∧ (r.status = 0 ∨ r.status = 1) ∨ r.postState.length = 32)
    (hp : r'.postState = []) :
    ∃ q, r'.setStatus r.statusEncoding = .ok q ∧ q.postState = r.postState ∧
      (r.postState = [] → q.status = r.status) ∧
      q = { r' with postState := q.postState, status := q.status } := by
  unfold statusEncoding
  obtain ⟨hn, hs | hs⟩ | hl := h
  case inl.inl =>
    rw [if_pos (by rw [hn]; rfl), if_pos hs]
    exact ⟨{ r' with status := 0 }, rfl, hp.trans hn.symm, fun _ => hs.symm, rfl⟩
  case inl.inr =>
    rw [if_pos (by rw [hn]; rfl), if_neg (by rw [hs]; decide)]
    exact ⟨{ r' with status := 1 }, rfl, hp.trans hn.symm, fun _ => hs.symm, rfl⟩
  case inr =>
    have hn : r.postState ≠ [] := fun h => by simp [h] at hl
    have ho : r.postState ≠ [0x01] := fun h => by simp [h] at hl
    rw [if_neg (by rw [hl]; decide), setStatus, if_neg ho, if_neg hn, if_pos hl]
    exact ⟨{ r' with postState := r.postState }, rfl, rfl, fun h => absurd h hn, rfl⟩

theorem setFromRLP_consensusData (h : r.Regular) (type : UInt8) :
    ∃ q, setFromRLP { zero with type } r.consensusData = .ok q ∧ q.type = type ∧
      { r with type }.Agrees q := by
  obtain ⟨q, hq, hp, hs, he⟩ := @setStatus_statusEncoding r
    { zero with
      type
      cumulativeGasUsed := r.cumulativeGasUsed
      bloom := r.bloom
      logs := r.logs
    } h.status rfl
  refine ⟨q, hq, ?_, ?_, hp, hs, ?_, ?_, ?_⟩
  all_goals rw [he]

theorem encodeToBytes_eq (h : r.Regular) :
    encodeToBytes ReceiptRLP.info r.consensusData = .ok r.consensusData.item.encode :=
  (ReceiptRLP.transfers .zero _).writes.encodeToBytes (Nat.lt_trans h.size (by decide))

theorem decodeBytes_eq (h : r.Regular) :
    decodeBytes ReceiptRLP.info r.consensusData.item.encode .zero = .ok r.consensusData :=
  (decodeBytes_encodeToBytes (ReceiptRLP.transfers .zero _) (Nat.lt_trans h.size (by decide))).right

theorem marshalBinary_legacy (h : r.Regular) (ht : r.type = 0x00) :
    r.marshalBinary = .ok r.consensusData.item.encode := by
  rw [marshalBinary, if_pos ht, encodeToBytes_eq h]

theorem marshalBinary_typed (h : r.Regular) (ht : r.type ≠ 0x00) :
    r.marshalBinary = .ok (r.type :: r.consensusData.item.encode) := by
  rw [marshalBinary, if_neg ht, encodeTyped, encodeToBytes_eq h]
  rfl

theorem unmarshalBinary_legacy (h : r.Regular) :
    zero.unmarshalBinary r.consensusData.item.encode =
      setFromRLP { zero with type := 0x00 } r.consensusData := by
  have hl : r.consensusData.item.encode.length < 2 ^ 64 := Nat.lt_trans h.size (by decide)
  have hh : r.consensusData.item.encode.head?.any (· > 0x7F) :=
    Raw.head_list (Nat.lt_of_le_of_lt Item.encodeAll_length_le hl)
  rw [unmarshalBinary, if_pos hh, decodeBytes_eq h]

theorem exists_cons_encode (item : Item) : ∃ x b, item.encode = x :: b :=
  exists_cons_of_length_pos item.encode_length_pos

theorem unmarshalBinary_typed (h : r.Regular) (ht : r.type = 0x02 ∨ r.type = 0x01 ∨ r.type = 0x03) :
    zero.unmarshalBinary (r.type :: r.consensusData.item.encode) =
      setFromRLP { zero with type := r.type } r.consensusData := by
  have hh : ¬(some r.type).any (· > 0x7F) := by
    obtain ht | ht | ht := ht
    all_goals
      rw [ht]
      decide
  have hd := decodeBytes_eq h
  obtain ⟨x, b, he⟩ := exists_cons_encode r.consensusData.item
  rw [he] at hd ⊢
  rw [unmarshalBinary, List.head?_cons, if_neg hh, decodeTyped, if_pos ht, hd]
  intro he
  cases he

-- There is no case for the type 0x7D.
theorem unmarshalBinary_submit (item : Item) :
    zero.unmarshalBinary (0x7D :: item.encode) = .error .txTypeNotSupported := by
  obtain ⟨x, b, he⟩ := exists_cons_encode item
  rw [he]
  rfl

theorem encodeIndex_submit (h : r.type = 0x7D) : r.encodeIndex = [0x7D] := by
  rw [encodeIndex, h]
  rfl

-- The payload is the same in all encodings.
theorem encodeIndex_eq (h : r.Regular) (ht : r.type ≠ 0x7D) : r.marshalBinary = .ok r.encodeIndex := by
  rw [encodeIndex, encodeToBytes_eq h]
  by_cases hz : r.type = 0x00
  case pos => rw [marshalBinary_legacy h hz, if_pos hz]; rfl
  case neg =>
    have hk : r.type = 0x01 ∨ r.type = 0x02 ∨ r.type = 0x03 := by
      have := h.type
      tauto
    rw [marshalBinary_typed h hz, if_neg hz, if_pos hk]
    rfl

theorem unmarshalBinary_marshalBinary (h : r.Regular) (ht : r.type ≠ 0x7D) :
    ∃ q, zero.unmarshalBinary r.encodeIndex = .ok q ∧ r.Agrees q := by
  obtain ⟨q, hq, hqt, ha⟩ := setFromRLP_consensusData h r.type
  refine ⟨q, ?_, ha⟩
  by_cases hz : r.type = 0x00
  case pos =>
    have hi := Except.ok.inj ((encodeIndex_eq h ht).symm.trans (marshalBinary_legacy h hz))
    rw [hi, unmarshalBinary_legacy h, ← hz, hq]
  case neg =>
    have hi := Except.ok.inj ((encodeIndex_eq h ht).symm.trans (marshalBinary_typed h hz))
    have hk : r.type = 0x02 ∨ r.type = 0x01 ∨ r.type = 0x03 := by
      have := h.type
      tauto
    rw [hi, unmarshalBinary_typed h hk, hq]

theorem agrees_of_encodeIndex_eq (h : r.Regular ∧ r.type ≠ 0x7D) (h' : r'.Regular ∧ r'.type ≠ 0x7D)
    (he : r.encodeIndex = r'.encodeIndex) : r.Agrees r' := by
  obtain ⟨q, hq, ha⟩ := unmarshalBinary_marshalBinary h.left h.right
  obtain ⟨q', hq', ha'⟩ := unmarshalBinary_marshalBinary h'.left h'.right
  cases (he ▸ hq).symm.trans hq'
  exact ha.of_common ha'

-- The codec works on exactly the receipts whose type is not 0x7D, and the encodings of a list
-- determine them.
theorem codec_iff (rs rs' : List Receipt) (h : ∀ r ∈ rs ++ rs', r.Regular) :
    (∀ r ∈ rs, (∃ b q, r.marshalBinary = .ok b ∧ zero.unmarshalBinary b = .ok q ∧ r.Agrees q ∧
      r.encodeIndex = b) ↔ r.type ≠ 0x7D) ∧
    ((∀ r ∈ rs ++ rs', r.type ≠ 0x7D) → rs.map encodeIndex = rs'.map encodeIndex →
      List.Forall₂ Agrees rs rs') := by
  constructor
  case left =>
    intro r hr
    have hr := h r (mem_append_left _ hr)
    constructor
    case mp =>
      rintro ⟨b, q, hb, hq, -⟩ ht
      rw [marshalBinary_typed hr (by rw [ht]; decide), ht] at hb
      cases hb
      rw [unmarshalBinary_submit] at hq
      cases hq
    case mpr =>
      intro ht
      obtain ⟨q, hq, ha⟩ := unmarshalBinary_marshalBinary hr ht
      exact ⟨_, q, encodeIndex_eq hr ht, hq, ha, rfl⟩
  case right =>
    intro ht he
    have hf : List.Forall₂ (· = ·) (rs.map encodeIndex) (rs'.map encodeIndex) :=
      he ▸ forall₂_refl _
    rw [forall₂_map_left_iff, forall₂_map_right_iff] at hf
    have hm (r : Receipt) (hr : r ∈ rs ++ rs') := And.intro (h r hr) (ht r hr)
    clear he h ht
    induction hf
    case nil => exact .nil
    case cons r r' rs rs' he _ hi =>
      refine .cons (agrees_of_encodeIndex_eq (hm r ?_) (hm r' ?_) he) (hi fun q hq => hm q ?_)
      all_goals grind

-- A receipt of this type has an encoding that cannot be decoded, and a list only gives its type.
def submitReceipt : Receipt :=
  { zero with type := 0x7D }

theorem submitReceipt_not_decoded :
    ∃ b, submitReceipt.marshalBinary = .ok b ∧
      zero.unmarshalBinary b = .error .txTypeNotSupported ∧ submitReceipt.encodeIndex ≠ b ∧
      { submitReceipt with cumulativeGasUsed := 1 }.encodeIndex = submitReceipt.encodeIndex := by
  have hr : submitReceipt.Regular := ⟨by decide, .inl ⟨rfl, .inl rfl⟩, by decide +kernel⟩
  refine ⟨_, marshalBinary_typed hr (by decide), unmarshalBinary_submit _, ?_, ?_⟩
  case refine_1 =>
    obtain ⟨x, b, he⟩ := exists_cons_encode submitReceipt.consensusData.item
    rw [encodeIndex_submit rfl, he]
    exact fun h => cons_ne_nil _ _ (List.cons.inj h).right.symm
  case refine_2 => rw [encodeIndex_submit rfl, encodeIndex_submit rfl]

-- Only the consensus fields are compared.
def feeReceipt : Receipt :=
  { zero with type := 0x02, status := 1 }

theorem codec_iff_feeReceipt :
    (∃ b q, feeReceipt.marshalBinary = .ok b ∧ zero.unmarshalBinary b = .ok q ∧
      feeReceipt.Agrees q ∧ feeReceipt.encodeIndex = b) ∧
    List.Forall₂ Agrees [feeReceipt] [{ feeReceipt with depositNonce := some 1 }] := by
  have hr : feeReceipt.Regular := ⟨by decide, .inl ⟨rfl, .inr rfl⟩, by decide +kernel⟩
  obtain ⟨hi, ha⟩ := codec_iff [feeReceipt] [{ feeReceipt with depositNonce := some 1 }]
    (forall_mem_cons.mpr ⟨hr, forall_mem_singleton.mpr ⟨hr.type, hr.status, hr.size⟩⟩)
  refine ⟨(hi feeReceipt mem_cons_self).mpr (by decide), ha ?_ rfl⟩
  exact forall_mem_cons.mpr ⟨by decide, forall_mem_singleton.mpr (by decide)⟩

end Receipt
end Types
